import Mathlib.Data.List.Basic
import WeavatrixMemory.Codecs.Basic
import WeavatrixMemory.Library.Decimals
import WeavatrixMemory.Projection.Replay
import WeavatrixMemory.Snapshot.Frame

namespace WeavatrixMemory.Snapshot.File

open Error Identity Decimals Projection.Replay Snapshot.Frame
open Codecs.Basic (Codec)

variable {P : Type}

abbrev Directory := String → Option (Vec UInt8)

structure SnapshotOptions where
  maxSnapshotBytes : Nat

/-- A simple non-empty file prefix. -/
def ValidPrefix (filePrefix : String) : Prop :=
  Trimmed filePrefix ∧ '/' ∉ filePrefix.toList ∧ '\\' ∉ filePrefix.toList

instance decidableValidPrefix (filePrefix : String) : Decidable (ValidPrefix filePrefix) :=
  inferInstanceAs (Decidable (_ ∧ _ ∧ _))

structure FileSnapshotStore (P : Type) where
  filePrefix : String
  codec : Codec (ProjectionSnapshot P)
  options : SnapshotOptions
  mappedReads : Bool
  validPrefix : ValidPrefix filePrefix
  positive : options.maxSnapshotBytes ≠ 0

def openStore (filePrefix : String) (codec : Codec (ProjectionSnapshot P)) (options : SnapshotOptions) :
    Result (FileSnapshotStore P) :=
  if hp : ValidPrefix filePrefix then
    if hm : options.maxSnapshotBytes ≠ 0 then .ok ⟨filePrefix, codec, options, false, hp, hm⟩
    else .error (.invalidValue "max_snapshot_bytes" "must be greater than zero")
  else .error (.invalidValue "snapshot.prefix" "must be a simple non-empty file prefix")

def FileSnapshotStore.withMemoryMappedReads (store : FileSnapshotStore P) : FileSnapshotStore P :=
  { store with mappedReads := true }

def finalPath (filePrefix : String) (position : UInt64) : String :=
  filePrefix ++ "-" ++ String.ofList (padded 20 position.toNat) ++ ".wmsnap"

/-- The number in the name of a file, if the name is one that the prefix owns. -/
def ownedPosition (filePrefix name : String) : Option UInt64 := do
  let rest ← name.toList.dropPrefix? (filePrefix ++ "-").toList
  let raw ← rest.dropSuffix? ".wmsnap".toList
  let position ← parse (2 ^ 64) raw
  some (UInt64.ofNat position)

def newer (filePrefix : String) (latest : Option (UInt64 × String)) (name : String) : Option (UInt64 × String) :=
  match ownedPosition filePrefix name with
  | none => latest
  | some position =>
      if latest.all fun current => decide (current.1 < position) then some (position, name) else latest

/-- The entries come in any order. -/
def latestPath (filePrefix : String) (entries : List String) : Option (UInt64 × String) :=
  entries.foldl (newer filePrefix) none

def readPath (store : FileSnapshotStore P) (directory : Directory) (path : String) (expectedPosition : UInt64) :
    Result (ProjectionSnapshot P) :=
  match directory path with
  | none => .error (.io (if store.mappedReads then "map snapshot" else "open snapshot") "entity not found")
  | some file => do
      let payload ← read file.items store.options.maxSnapshotBytes store.mappedReads
      let snapshot ← store.codec.decode payload
      throwIf (snapshot.cursor.globalPosition ≠ some expectedPosition)
        (corrupt "snapshot filename and cursor disagree")
      .ok snapshot

def encodeFrame (store : FileSnapshotStore P) (snapshot : ProjectionSnapshot P) : Result (Vec UInt8) := do
  let bytes ← store.codec.encode snapshot
  throwIf (store.options.maxSnapshotBytes < bytes.items.length)
    (.invalidValue "snapshot" "encoded snapshot exceeds max_snapshot_bytes")
  encode bytes

def requirePosition (snapshot : ProjectionSnapshot P) : Result UInt64 :=
  match snapshot.cursor.globalPosition with
  | some position => .ok position
  | none => .error (.invalidValue "snapshot.cursor" "cannot persist an empty replay cursor")

def conflict : MemoryError := .invalidValue "snapshot" "different snapshot already exists at this position"

structure Ticket where
  process : Nat
  id : Nat

def temporaryPath (path : String) (ticket : Ticket) : String :=
  "." ++ path ++ ".tmp-" ++ ticket.process.repr ++ "-" ++ ticket.id.repr

def createNew (path : String) : Update Directory Unit := do
  let directory ← get
  throwIf (directory path ≠ none) (.io "create temporary snapshot" "entity already exists")
  set (Function.update directory path (some ⟨[], nil_fits⟩))

def writeAll (path : String) (bytes : Vec UInt8) : Update Directory Unit :=
  modify fun directory => Function.update directory path (some bytes)

def rename (source target : String) : Update Directory Unit := do
  let directory ← get
  throwIf (directory source = none) (.io "commit snapshot" "entity not found")
  set (Function.update (Function.update directory target (directory source)) source none)

/-- A call under the guard, which removes the file at the path when the call fails. -/
def guarded (path : String) (call : Update Directory Unit) : Update Directory Unit := fun directory =>
  match call directory with
  | .ok _ next => .ok () next
  | .error e next => .error e (Function.update next path none)

def save (store : FileSnapshotStore P) (ticket : Ticket) (snapshot : ProjectionSnapshot P) :
    Update Directory Unit := do
  let position ← requirePosition snapshot
  let final := finalPath store.filePrefix position
  let frame ← encodeFrame store snapshot
  let directory ← get
  match directory final with
  | some existing => throwIf (existing ≠ frame) conflict
  | none =>
      let temporary := temporaryPath final ticket
      guarded temporary do
        createNew temporary
        writeAll temporary frame
        rename temporary final

def loadLatest (store : FileSnapshotStore P) (directory : Directory) (entries : List String) :
    Result (Option (ProjectionSnapshot P)) :=
  match latestPath store.filePrefix entries with
  | none => .ok none
  | some (position, path) => (readPath store directory path position).map some

structure Lists (directory : Directory) (entries : List String) : Prop where
  nodup : entries.Nodup
  mem : ∀ name, name ∈ entries ↔ directory name ≠ none

theorem dash_notMem_of_parse {raw : List Char} {v : Nat} (h : parse (2 ^ 64) raw = some v) : '-' ∉ raw := by
  intro hmem
  obtain hd | hd := isDigit_of_parse h '-' hmem
  · exact absurd hd (by decide)
  · exact absurd hd (by decide)

theorem dash_notMem_padded {width n : Nat} : '-' ∉ padded width n :=
  fun hmem => absurd (isDigit_padded '-' hmem) (by decide)

theorem toList_finalPath (filePrefix : String) (position : UInt64) :
    (finalPath filePrefix position).toList =
      filePrefix.toList ++ '-' :: (padded 20 position.toNat ++ ".wmsnap".toList) := by
  simp only [finalPath, String.toList_append, String.toList_ofList, List.append_assoc]
  rfl

theorem ownedPosition_eq_some {filePrefix name : String} {position : UInt64} :
    ownedPosition filePrefix name = some position ↔ ∃ raw v, parse (2 ^ 64) raw = some v ∧
      UInt64.ofNat v = position ∧ name.toList = filePrefix.toList ++ '-' :: (raw ++ ".wmsnap".toList) := by
  have hstart : (filePrefix ++ "-").toList = filePrefix.toList ++ ['-'] := String.toList_append
  simp only [ownedPosition, Option.bind_eq_bind, Option.bind_eq_some_iff, List.dropPrefix?_eq_some_iff,
    List.dropSuffix?_eq_some_iff, beq_iff_eq, Option.some.injEq, hstart]
  constructor
  · rintro ⟨_, ⟨_, hname, rfl⟩, raw, ⟨_, rfl, rfl⟩, v, hv, hposition⟩
    refine ⟨raw, v, hv, hposition, ?_⟩
    rw [hname, List.append_assoc, List.singleton_append]
  · rintro ⟨raw, v, hv, hposition, hname⟩
    refine ⟨_, ⟨_, ?_, rfl⟩, raw, ⟨_, rfl, rfl⟩, v, hv, hposition⟩
    rw [hname, List.append_assoc, List.singleton_append]

theorem append_cons_inj_last {α : Type} {sep : α} {xs xs' ys ys' : List α} (hy : sep ∉ ys) (hy' : sep ∉ ys')
    (h : xs ++ sep :: ys = xs' ++ sep :: ys') : xs = xs' ∧ ys = ys' := by
  rw [List.append_eq_append_iff] at h
  obtain ⟨as, hx, hs⟩ | ⟨as, hx, hs⟩ := h
  · cases as with
    | nil =>
        rw [List.append_nil] at hx
        exact ⟨hx.symm, List.tail_eq_of_cons_eq hs⟩
    | cons a as =>
        have hmem : sep ∈ ys := by
          rw [List.tail_eq_of_cons_eq hs]
          exact List.mem_append_right _ List.mem_cons_self
        exact absurd hmem hy
  · cases as with
    | nil =>
        rw [List.append_nil] at hx
        exact ⟨hx, (List.tail_eq_of_cons_eq hs).symm⟩
    | cons a as =>
        have hmem : sep ∈ ys' := by
          rw [List.tail_eq_of_cons_eq hs]
          exact List.mem_append_right _ List.mem_cons_self
        exact absurd hmem hy'

/-- The name of a generation belongs to its own prefix only, and its number can be read back. -/
theorem ownedPosition_finalPath (own filePrefix : String) (position : UInt64) :
    ownedPosition own (finalPath filePrefix position) = if own = filePrefix then some position else none := by
  have hdigits := @dash_notMem_padded 20 position.toNat
  split
  next h =>
    subst h
    rw [ownedPosition_eq_some]
    exact ⟨_, _, parse_padded position.toNat_lt, UInt64.ofNat_toNat, toList_finalPath own position⟩
  next h =>
    rw [Option.eq_none_iff_forall_ne_some]
    intro other hother
    obtain ⟨raw, v, hv, -, hname⟩ := ownedPosition_eq_some.mp hother
    rw [toList_finalPath, ← List.cons_append, ← List.cons_append, ← List.append_assoc, ← List.append_assoc,
      List.append_cancel_right_eq] at hname
    obtain ⟨heq, -⟩ := append_cons_inj_last hdigits (dash_notMem_of_parse hv) hname
    exact h (String.toList_inj.mp heq).symm

theorem finalPath_inj {filePrefix other : String} {position n : UInt64} :
    finalPath filePrefix position = finalPath other n ↔ filePrefix = other ∧ position = n := by
  constructor
  · intro h
    have hown := ownedPosition_finalPath filePrefix filePrefix position
    rw [if_pos rfl, h, ownedPosition_finalPath] at hown
    split at hown
    next hp => exact ⟨hp, (Option.some.inj hown).symm⟩
    next => cases hown
  · rintro ⟨rfl, rfl⟩
    rfl

/-- The name of a temporary file ends in a digit. -/
theorem temporaryPath_ne_finalPath (path : String) (ticket : Ticket) (filePrefix : String) (position : UInt64) :
    temporaryPath path ticket ≠ finalPath filePrefix position := by
  intro h
  have hlast := congrArg (fun name : String => name.toList.getLast?) h
  have hdigits : ticket.id.repr.toList ≠ [] := by
    rw [Nat.toList_repr]
    exact Nat.toDigits_ne_nil
  simp only [temporaryPath, finalPath, String.toList_append] at hlast
  rw [List.getLast?_append_of_ne_nil _ hdigits, List.getLast?_append_of_ne_nil _ (by decide)] at hlast
  have hp : 'p' ∈ ticket.id.repr.toList := List.mem_of_getLast? hlast
  rw [Nat.toList_repr] at hp
  exact absurd (Nat.isDigit_of_mem_toDigits (by decide) (by decide) hp) (by decide)

theorem guarded_eq {directory : Directory} {temporary final : String} (frame : Vec UInt8)
    (hfree : directory temporary = none) (hne : temporary ≠ final) :
    guarded temporary (do
      createNew temporary
      writeAll temporary frame
      rename temporary final) directory = .ok () (Function.update directory final (some frame)) := by
  have hfirst : ¬ directory temporary ≠ none := not_not.mpr hfree
  simp only [guarded, createNew, writeAll, rename, bind_apply, get_apply, liftM_eq, throwIf_of_not hfirst,
    ofResult_ok, set_apply, modify_apply, Function.update_self, reduceCtorEq, not_false_eq_true, throwIf_of_not,
    Function.update_idem]
  congr 1
  funext name
  by_cases ht : name = temporary
  · subst ht
    rw [Function.update_self, Function.update_of_ne hne, hfree]
  · rw [Function.update_of_ne ht]
    by_cases hf : name = final
    · subst hf
      rw [Function.update_self, Function.update_self]
    · rw [Function.update_of_ne hf, Function.update_of_ne hf, Function.update_of_ne ht]

def Tidy (directory : Directory) : Prop := ∀ path ticket, directory (temporaryPath path ticket) = none

theorem save_eq {store : FileSnapshotStore P} {snapshot : ProjectionSnapshot P} {position : UInt64}
    {frame : Vec UInt8} {directory : Directory} (hposition : snapshot.cursor.globalPosition = some position)
    (hframe : encodeFrame store snapshot = .ok frame) (htidy : Tidy directory) (ticket : Ticket) :
    save store ticket snapshot directory = match directory (finalPath store.filePrefix position) with
      | some existing => if existing = frame then .ok () directory else .error conflict directory
      | none => .ok () (Function.update directory (finalPath store.filePrefix position) (some frame)) := by
  simp only [save, requirePosition, hposition, hframe, bind_apply, liftM_eq, ofResult_ok, get_apply]
  cases hd : directory (finalPath store.filePrefix position) with
  | some existing =>
      by_cases h : existing = frame
      · simp only [h, ne_eq, not_true_eq_false, not_false_eq_true, throwIf_of_not, ofResult_ok, if_true]
      · simp only [throwIf, ne_eq, h, not_false_eq_true, if_true, ofResult_error, if_false]
  | none => exact guarded_eq frame (htidy _ _) (temporaryPath_ne_finalPath _ _ _ _)

theorem save_eq_error {store : FileSnapshotStore P} {snapshot : ProjectionSnapshot P} {e : MemoryError}
    (h : requirePosition snapshot = .error e ∨ encodeFrame store snapshot = .error e ∧
      snapshot.cursor.globalPosition ≠ none) (ticket : Ticket) (directory : Directory) :
    save store ticket snapshot directory = .error e directory := by
  obtain h | ⟨h, hposition⟩ := h
  · simp only [save, h, bind_apply, liftM_eq, ofResult_error]
  · obtain ⟨position, hposition⟩ := Option.ne_none_iff_exists'.mp hposition
    simp only [save, requirePosition, hposition, h, bind_apply, liftM_eq, ofResult_ok, ofResult_error]

def Latest (filePrefix : String) (seen : List String) : Option (UInt64 × String) → Prop
  | none => ∀ name ∈ seen, ownedPosition filePrefix name = none
  | some (position, path) => path ∈ seen ∧ ownedPosition filePrefix path = some position ∧
      ∀ name ∈ seen, ∀ n, ownedPosition filePrefix name = some n → n ≤ position

variable {filePrefix : String}

theorem Latest.newer {seen : List String} {latest : Option (UInt64 × String)} (h : Latest filePrefix seen latest)
    (name : String) : Latest filePrefix (seen ++ [name]) (newer filePrefix latest name) := by
  rw [File.newer]
  cases hn : ownedPosition filePrefix name with
  | none =>
      cases latest with
      | none => exact List.forall_mem_append.mpr ⟨h, List.forall_mem_singleton.mpr hn⟩
      | some current =>
          obtain ⟨hmem, hown, hmax⟩ := h
          refine ⟨List.mem_append_left _ hmem, hown, ?_⟩
          refine List.forall_mem_append.mpr ⟨hmax, List.forall_mem_singleton.mpr fun n hother => ?_⟩
          rw [hn] at hother
          cases hother
  | some position =>
      have hlast : ∀ n, ownedPosition filePrefix name = some n → n ≤ position := by
        intro n hother
        rw [hn] at hother
        rw [Option.some.inj hother]
        exact UInt64.le_refl n
      cases latest with
      | none =>
          refine ⟨List.mem_append_right _ List.mem_cons_self, hn, ?_⟩
          refine List.forall_mem_append.mpr ⟨fun other ho n hother => ?_, List.forall_mem_singleton.mpr hlast⟩
          rw [h other ho] at hother
          cases hother
      | some current =>
          obtain ⟨hmem, hown, hmax⟩ := h
          dsimp only
          simp only [Option.all_some, decide_eq_true_iff]
          split
          next hlt =>
            refine ⟨List.mem_append_right _ List.mem_cons_self, hn, ?_⟩
            refine List.forall_mem_append.mpr ⟨fun other ho n hother => ?_, List.forall_mem_singleton.mpr hlast⟩
            exact UInt64.le_trans (hmax other ho n hother) (UInt64.le_of_lt hlt)
          next hlt =>
            refine ⟨List.mem_append_left _ hmem, hown, ?_⟩
            refine List.forall_mem_append.mpr ⟨hmax, List.forall_mem_singleton.mpr fun n hother => ?_⟩
            exact UInt64.le_trans (hlast n hother) (UInt64.not_lt.mp hlt)

theorem Latest.foldl {seen : List String} {latest : Option (UInt64 × String)} (h : Latest filePrefix seen latest)
    (entries : List String) :
    Latest filePrefix (seen ++ entries) (entries.foldl (File.newer filePrefix) latest) := by
  induction entries generalizing seen latest with
  | nil =>
      rw [List.append_nil]
      exact h
  | cons name rest ih =>
      rw [List.foldl_cons, List.append_cons]
      exact ih (h.newer name)

theorem latestPath_latest (filePrefix : String) (entries : List String) :
    Latest filePrefix entries (latestPath filePrefix entries) :=
  @Latest.foldl filePrefix [] none (fun _ h => absurd h List.not_mem_nil) entries

def Named (directory : Directory) : Prop :=
  ∀ name, directory name ≠ none → ∃ owner position, name = finalPath owner position

theorem Named.tidy {directory : Directory} (h : Named directory) : Tidy directory := by
  intro path ticket
  by_contra hfile
  obtain ⟨owner, position, hname⟩ := h _ hfile
  exact temporaryPath_ne_finalPath path ticket owner position hname

theorem latestPath_eq_none {directory : Directory} {entries : List String} (hentries : Lists directory entries)
    (h : latestPath filePrefix entries = none) (position : UInt64) :
    directory (finalPath filePrefix position) = none := by
  by_contra hfile
  have hlatest := latestPath_latest filePrefix entries
  rw [h] at hlatest
  have hnone := hlatest _ ((hentries.mem _).mpr hfile)
  rw [ownedPosition_finalPath, if_pos rfl] at hnone
  cases hnone

theorem latestPath_eq_some {directory : Directory} {entries : List String} (hnamed : Named directory)
    (hentries : Lists directory entries) {position : UInt64} {path : String}
    (h : latestPath filePrefix entries = some (position, path)) :
    path = finalPath filePrefix position ∧ directory (finalPath filePrefix position) ≠ none ∧
      ∀ n, directory (finalPath filePrefix n) ≠ none → n ≤ position := by
  have hlatest := latestPath_latest filePrefix entries
  rw [h] at hlatest
  obtain ⟨hpath, hown, hmax⟩ := hlatest
  have hfile := (hentries.mem path).mp hpath
  obtain ⟨owner, n, rfl⟩ := hnamed path hfile
  rw [ownedPosition_finalPath] at hown
  split at hown
  next howner =>
    subst howner
    obtain rfl := Option.some.inj hown
    refine ⟨rfl, hfile, fun m hm => hmax _ ((hentries.mem _).mpr hm) m ?_⟩
    rw [ownedPosition_finalPath, if_pos rfl]
  next => cases hown

theorem encodeFrame_eq_ok {store : FileSnapshotStore P} {snapshot : ProjectionSnapshot P} {frame : Vec UInt8}
    (h : encodeFrame store snapshot = .ok frame) : ∃ bytes, store.codec.encode snapshot = .ok bytes ∧
      bytes.items.length ≤ store.options.maxSnapshotBytes ∧ frame.items = frameOf bytes.items := by
  simp only [encodeFrame, bind_eq_ok, throwIf_eq_ok, not_lt] at h
  obtain ⟨bytes, hbytes, -, hmax, hencode⟩ := h
  exact ⟨bytes, hbytes, hmax, encode_eq_ok hencode⟩

theorem frameOf_inj {bytes bytes' : List UInt8} : frameOf bytes = frameOf bytes' ↔ bytes = bytes' := by
  constructor
  · intro h
    rw [← drop_frameOf bytes, h, drop_frameOf]
  · rintro rfl
    rfl

theorem readPath_eq {store : FileSnapshotStore P} {directory : Directory} {path : String} {frame bytes : Vec UInt8}
    {position : UInt64} {loaded : ProjectionSnapshot P} (hfile : directory path = some frame)
    (hitems : frame.items = frameOf bytes.items) (hmax : bytes.items.length ≤ store.options.maxSnapshotBytes)
    (hdecode : store.codec.decode bytes.items = .ok loaded)
    (hposition : loaded.cursor.globalPosition = some position) :
    readPath store directory path position = .ok loaded := by
  simp only [readPath, hfile, hitems, read_frameOf bytes.fits hmax, ok_bind, hdecode, hposition, ne_eq,
    not_true_eq_false, not_false_eq_true, throwIf_of_not]

end WeavatrixMemory.Snapshot.File
