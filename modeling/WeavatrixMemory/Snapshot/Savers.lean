import WeavatrixMemory.Library.Publishing
import WeavatrixMemory.Snapshot.Generations

namespace WeavatrixMemory.Snapshot.Savers

open Error Identity Projection.Replay Relation Publishing Snapshot.Frame Snapshot.File Generations

variable {P : Type}

def names : Names String Ticket (Vec UInt8) where
  Final name := ∃ filePrefix position, name = finalPath filePrefix position
  temporary := temporaryPath
  empty := ⟨[], nil_fits⟩
  Part part whole := part.items <+: whole.items

deriving instance DecidableEq for Ticket

abbrev Disk := Publishing.Disk String Ticket (Vec UInt8)

theorem final_finalPath (filePrefix : String) (position : UInt64) : names.Final (finalPath filePrefix position) :=
  ⟨filePrefix, position, rfl⟩

theorem dash_notMem_repr (n : Nat) : '-' ∉ n.repr.toList := by
  rw [Nat.toList_repr]
  exact fun hmem => absurd (Nat.isDigit_of_mem_toDigits (by decide) (by decide) hmem) (by decide)

theorem repr_inj {m n : Nat} (h : m.repr.toList = n.repr.toList) : m = n := by
  rw [Nat.toList_repr, Nat.toList_repr] at h
  have hdigits := congrArg (fun digits => Nat.ofDigitChars 10 digits 0) h
  simpa only [Nat.ofDigitChars_toDigits (by decide : 1 < 10) (by decide)] using hdigits

theorem toList_temporaryPath (path : String) (ticket : Ticket) : (temporaryPath path ticket).toList =
    (".".toList ++ path.toList ++ ".tmp".toList) ++ '-' :: (ticket.process.repr.toList) ++
      '-' :: ticket.id.repr.toList := by
  have htmp : ".tmp-".toList = ".tmp".toList ++ ['-'] := by decide
  have hdash : "-".toList = ['-'] := by decide
  simp only [temporaryPath, String.toList_append, htmp, hdash, List.append_assoc, List.cons_append, List.nil_append]

theorem temporaryPath_inj {path path' : String} {ticket ticket' : Ticket}
    (h : temporaryPath path ticket = temporaryPath path' ticket') : path = path' ∧ ticket = ticket' := by
  have hlist := congrArg String.toList h
  rw [toList_temporaryPath, toList_temporaryPath] at hlist
  obtain ⟨hrest, hid⟩ := append_cons_inj_last (dash_notMem_repr _) (dash_notMem_repr _) hlist
  obtain ⟨hpath, hprocess⟩ := append_cons_inj_last (dash_notMem_repr _) (dash_notMem_repr _) hrest
  rw [List.append_assoc, List.append_assoc] at hpath
  have hpath := List.append_cancel_right (List.append_cancel_left hpath)
  rcases ticket with ⟨process, id⟩
  rcases ticket' with ⟨process', id'⟩
  have hprocess : process = process' := repr_inj hprocess
  have hid : id = id' := repr_inj hid
  exact ⟨String.toList_inj.mp hpath, by rw [hprocess, hid]⟩

theorem names_apart : names.Apart where
  temporary := temporaryPath_inj
  final := by
    rintro path ticket ⟨filePrefix, position, h⟩
    exact temporaryPath_ne_finalPath path ticket filePrefix position h

theorem ownedPosition_temporaryPath (filePrefix path : String) (ticket : Ticket) :
    ownedPosition filePrefix (temporaryPath path ticket) = none := by
  rw [Option.eq_none_iff_forall_ne_some]
  intro position h
  obtain ⟨raw, v, -, -, hname⟩ := ownedPosition_eq_some.mp h
  have hlast := congrArg List.getLast? hname
  have hdigits : ticket.id.repr.toList ≠ [] := by
    rw [Nat.toList_repr]
    exact Nat.toDigits_ne_nil
  rw [temporaryPath, String.toList_append, List.getLast?_append_of_ne_nil _ hdigits,
    List.getLast?_append_of_ne_nil _ (List.cons_ne_nil _ _), List.getLast?_cons_of_ne_nil (by simp),
    List.getLast?_append_of_ne_nil _ (by decide)] at hlast
  have hp : 'p' ∈ ticket.id.repr.toList := List.mem_of_getLast? hlast
  rw [Nat.toList_repr] at hp
  exact absurd (Nat.isDigit_of_mem_toDigits (by decide) (by decide) hp) (by decide)

variable {disk later : Disk} {store : FileSnapshotStore P} {entries : List String}

theorem latestPath_of_sound (hs : Sound names disk) (hentries : Lists disk.files entries) {filePrefix path : String}
    {position : UInt64} (h : latestPath filePrefix entries = some (position, path)) :
    path = finalPath filePrefix position ∧ disk.files (finalPath filePrefix position) ≠ none ∧
      ∀ n, disk.files (finalPath filePrefix n) ≠ none → n ≤ position := by
  have hlatest := latestPath_latest filePrefix entries
  rw [h] at hlatest
  obtain ⟨hpath, hown, hmax⟩ := hlatest
  have hfile := (hentries.mem path).mp hpath
  obtain ⟨owner, n, rfl⟩ | ⟨final, ticket, rfl⟩ := hs.named path hfile
  · rw [ownedPosition_finalPath] at hown
    split at hown
    next howner =>
      subst howner
      obtain rfl := Option.some.inj hown
      refine ⟨rfl, hfile, fun m hm => hmax _ ((hentries.mem _).mpr hm) m ?_⟩
      rw [ownedPosition_finalPath, if_pos rfl]
    next => cases hown
  · rw [show names.temporary final ticket = temporaryPath final ticket from rfl, ownedPosition_temporaryPath] at hown
    cases hown

/-- The store can read back what has been asked for under its names. -/
def Readable (store : FileSnapshotStore P) (x : String × Vec UInt8) : Prop :=
  ∀ position, x.1 = finalPath store.filePrefix position → ∃ (bytes : Vec UInt8) (loaded : ProjectionSnapshot P),
    x.2.items = frameOf bytes.items ∧ bytes.items.length ≤ store.options.maxSnapshotBytes ∧
    store.codec.decode bytes.items = .ok loaded ∧
    loaded.cursor.globalPosition = some position

/-- What is loaded is whole and was asked for, and there is no file of a greater position. -/
def Served (store : FileSnapshotStore P) (disk : Disk) : Option (ProjectionSnapshot P) → Prop
  | none => ∀ position, disk.files (finalPath store.filePrefix position) = none
  | some loaded => ∃ (position : UInt64) (frame bytes : Vec UInt8),
      disk.files (finalPath store.filePrefix position) = some frame ∧
      (finalPath store.filePrefix position, frame) ∈ disk.begun ∧ frame.items = frameOf bytes.items ∧
      store.codec.decode bytes.items = .ok loaded ∧ loaded.cursor.globalPosition = some position ∧
      ∀ n, disk.files (finalPath store.filePrefix n) ≠ none → n ≤ position

theorem loadLatest_served (hs : Sound names disk) (hentries : Lists disk.files entries)
    (hreadable : ∀ x ∈ disk.begun, Readable store x) :
    ∃ latest, loadLatest store disk.files entries = .ok latest ∧ Served store disk latest := by
  rw [loadLatest]
  cases hl : latestPath store.filePrefix entries with
  | none => exact ⟨none, rfl, latestPath_eq_none hentries hl⟩
  | some current =>
      obtain ⟨position, path⟩ := current
      obtain ⟨rfl, hfile, hmax⟩ := latestPath_of_sound hs hentries hl
      obtain ⟨frame, hframe⟩ := Option.ne_none_iff_exists'.mp hfile
      have hbegun := hs.published _ frame (final_finalPath _ _) hframe
      obtain ⟨bytes, loaded, hitems, hlimit, hdecode, hposition⟩ := hreadable _ hbegun position rfl
      have hread := readPath_eq hframe hitems hlimit hdecode hposition
      refine ⟨some loaded, ?_, position, frame, bytes, hframe, hbegun, hitems, hdecode, hposition, hmax⟩
      dsimp only
      rw [hread]
      rfl

theorem save_eq_of_free {snapshot : ProjectionSnapshot P} {position : UInt64} {frame : Vec UInt8}
    {directory : Directory} {ticket : Ticket} (hposition : snapshot.cursor.globalPosition = some position)
    (hframe : encodeFrame store snapshot = .ok frame)
    (hfree : directory (temporaryPath (finalPath store.filePrefix position) ticket) = none) :
    save store ticket snapshot directory = match directory (finalPath store.filePrefix position) with
      | some existing => if existing = frame then .ok () directory else .error conflict directory
      | none => .ok () (Function.update directory (finalPath store.filePrefix position) (some frame)) := by
  simp only [save, requirePosition, hposition, hframe, bind_apply, liftM_eq, ofResult_ok, get_apply]
  cases hd : directory (finalPath store.filePrefix position) with
  | some existing =>
      by_cases h : existing = frame
      · simp only [h, ne_eq, not_true_eq_false, not_false_eq_true, throwIf_of_not, ofResult_ok, if_true]
      · simp only [throwIf, ne_eq, h, not_false_eq_true, if_true, ofResult_error, if_false]
  | none => exact guarded_eq frame hfree (temporaryPath_ne_finalPath _ _ _ _)

/-- A call of `save` that nothing disturbs is a run of its steps, also among calls that are under way. -/
theorem save_steps {snapshot : ProjectionSnapshot P} {position : UInt64} {frame : Vec UInt8} {ticket : Ticket}
    (hposition : snapshot.cursor.globalPosition = some position) (hframe : encodeFrame store snapshot = .ok frame)
    (hfree : disk.calls ticket = none)
    (htemporary : disk.files (temporaryPath (finalPath store.filePrefix position) ticket) = none) :
    ∃ later, ReflTransGen (Step names) disk later ∧ later.files = after (save store ticket snapshot disk.files) ∧
      later.calls = disk.calls ∧ later.begun = (finalPath store.filePrefix position, frame) :: disk.begun := by
  have hfinal := final_finalPath store.filePrefix position
  rw [save_eq_of_free hposition hframe htemporary]
  cases hfile : disk.files (finalPath store.filePrefix position) with
  | none =>
      have hpublished := run_published names_apart (disk.ask (finalPath store.filePrefix position, frame)) ticket frame
        hfree hfinal htemporary
      exact ⟨_, hpublished.head (.begin hfree hfinal), rfl, rfl, rfl⟩
  | some existing =>
      obtain ⟨hrefused, hsame⟩ := @run_compared _ _ _ names _ _ _ _ _ frame _ hfree hfinal hfile
      by_cases h : existing = frame
      · simp only [if_pos h, after_ok]
        exact ⟨_, hsame h, rfl, rfl, rfl⟩
      · simp only [if_neg h, after_error]
        exact ⟨_, hrefused, rfl, rfl, rfl⟩

/-- However the saves of all stores and processes are interleaved, whatever fails in them and wherever they stop,
a file under a final name is a whole frame that a save has asked for, it does not go away, and each store loads the
newest of its files. -/
theorem saves_atomic (disk : Disk) (h : ReflTransGen (Step names) .empty disk) :
    (∀ filePrefix position frame, disk.files (finalPath filePrefix position) = some frame →
      (finalPath filePrefix position, frame) ∈ disk.begun) ∧
    (∀ x ∈ disk.completed, disk.files x.1 ≠ none ∧
      ((∀ y ∈ disk.begun, y.1 = x.1 → y.2 = x.2) → disk.files x.1 = some x.2)) ∧
    (∀ later, ReflTransGen (Step names) disk later → ∀ filePrefix position,
      disk.files (finalPath filePrefix position) ≠ none → later.files (finalPath filePrefix position) ≠ none) ∧
    (∀ (P : Type) (store : FileSnapshotStore P) entries, Lists disk.files entries →
      (∀ x ∈ disk.begun, Readable store x) →
      ∃ latest, loadLatest store disk.files entries = .ok latest ∧ Served store disk latest) ∧
    ∀ (P : Type) (store : FileSnapshotStore P) snapshot position frame ticket,
      snapshot.cursor.globalPosition = some position → encodeFrame store snapshot = .ok frame →
      disk.calls ticket = none → disk.files (temporaryPath (finalPath store.filePrefix position) ticket) = none →
      ∃ later, ReflTransGen (Step names) disk later ∧ later.files = after (save store ticket snapshot disk.files) ∧
        later.calls = disk.calls ∧ later.begun = (finalPath store.filePrefix position, frame) :: disk.begun := by
  have hs := sound_empty.run names_apart h
  refine ⟨fun filePrefix position frame hfile => hs.published _ frame (final_finalPath _ _) hfile, fun x hx => ?_,
    fun later hlater filePrefix position hfile => hs.run_kept names_apart hlater (final_finalPath _ _) hfile,
    fun P store entries hentries hreadable => loadLatest_served hs hentries hreadable,
    fun P store snapshot position frame ticket => save_steps⟩
  obtain ⟨-, hfinal, hfile⟩ := hs.completed x hx
  refine ⟨hfile, fun honly => ?_⟩
  obtain ⟨frame, hframe⟩ := Option.ne_none_iff_exists'.mp hfile
  exact hframe.trans (congrArg some (honly (x.1, frame) (hs.published x.1 frame hfinal hframe) rfl))

def fifth : String := finalPath "a" 5

/-- A process stops while it writes, and another saves the same snapshot. -/
theorem saves_atomic_after_stop : ∃ disk frame, ReflTransGen (Step names) .empty disk ∧
    disk.files (temporaryPath fifth ⟨1, 0⟩) ≠ none ∧ disk.files fifth = some frame ∧
    ∃ latest, loadLatest (twoStores true) disk.files [fifth, temporaryPath fifth ⟨1, 0⟩] = .ok latest ∧
      Served (twoStores true) disk latest := by
  obtain ⟨frame, hframe⟩ : ∃ frame, encodeFrame (twoStores true) (positionSnapshot 5) = .ok frame :=
    exists_ok_of_isOk (by decide +kernel)
  have hfifth : finalPath (twoStores true).filePrefix 5 = fifth := rfl
  have hpaths : temporaryPath fifth ⟨1, 0⟩ ≠ fifth := temporaryPath_ne_finalPath _ _ _ _
  have hother : temporaryPath fifth ⟨2, 0⟩ ≠ temporaryPath fifth ⟨1, 0⟩ := by decide +kernel
  let part : Vec UInt8 := ⟨frame.items.take 3, (List.length_take_le' 3 frame.items).trans_lt frame.fits⟩
  have hpart : names.Part part frame := List.take_prefix 3 frame.items
  obtain ⟨torn, htorn, hscratch, hcalls, hasked⟩ : ∃ torn : Disk, ReflTransGen (Step names) .empty torn ∧
      torn.files = Function.update (fun _ => none) (temporaryPath fifth ⟨1, 0⟩) (some part) ∧
      torn.calls = (fun _ => none) ∧ torn.begun = [(fifth, frame)] :=
    ⟨_, run_stopped (t := (⟨1, 0⟩ : Ticket)) rfl (final_finalPath _ _) rfl hpart, rfl, rfl, rfl⟩
  have hfree : torn.files (temporaryPath fifth ⟨2, 0⟩) = none := by rw [hscratch, Function.update_of_ne hother]
  have habsent : torn.files fifth = none := by rw [hscratch, Function.update_of_ne hpaths.symm]
  obtain ⟨disk, hrun, hfiles, -, hbegun⟩ := (saves_atomic torn htorn).2.2.2.2 Unit (twoStores true)
    (positionSnapshot 5) 5 frame ⟨2, 0⟩ rfl hframe (by rw [hcalls]) hfree
  have hsave := @save_eq_of_free _ _ _ _ _ torn.files ⟨2, 0⟩
    (show (positionSnapshot 5).cursor.globalPosition = some 5 from rfl) hframe hfree
  rw [hfifth, habsent] at hsave
  rw [hsave] at hfiles
  have hfiles : disk.files = Function.update torn.files fifth (some frame) := hfiles
  rw [hscratch] at hfiles
  have hentries : Lists disk.files [fifth, temporaryPath fifth ⟨1, 0⟩] := by
    rw [hfiles]
    exact lists_two hpaths part frame
  refine ⟨disk, frame, htorn.trans hrun, (hentries.mem _).mp (by simp), by rw [hfiles, Function.update_self],
    (saves_atomic disk (htorn.trans hrun)).2.2.2.1 Unit (twoStores true) _ hentries ?_⟩
  obtain ⟨bytes, hbytes, hlimit, hitems⟩ := encodeFrame_eq_ok hframe
  obtain ⟨loaded, hdecode, hcursor, -⟩ := positionCodec_inverts (positionSnapshot 5) bytes hbytes
  intro x hx position hposition
  rw [hbegun, hasked, hfifth] at hx
  obtain rfl : x = (fifth, frame) := by simpa using hx
  obtain rfl : (5 : UInt64) = position := (finalPath_inj.mp hposition).2
  exact ⟨bytes, loaded, hitems, hlimit, hdecode, by rw [hcursor]; rfl⟩

end WeavatrixMemory.Snapshot.Savers
