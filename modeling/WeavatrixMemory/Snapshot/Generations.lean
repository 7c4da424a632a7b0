import WeavatrixMemory.Snapshot.File

namespace WeavatrixMemory.Snapshot.Generations

open Error Identity Projection.Replay Snapshot.Frame Snapshot.File
open Codecs.Basic (Codec)

/-- The derived equality of snapshots, over an equality of the projections in them. -/
def SameSnapshot {P : Type} (same : P → P → Prop) (a b : ProjectionSnapshot P) : Prop :=
  a.cursor = b.cursor ∧ same a.projection b.projection

def Inverts {P : Type} (codec : Codec (ProjectionSnapshot P)) (same : P → P → Prop) : Prop :=
  ∀ snapshot bytes, codec.encode snapshot = .ok bytes →
    ∃ loaded, codec.decode bytes.items = .ok loaded ∧ SameSnapshot same loaded snapshot

/-- The result of a load: the snapshot of the greatest position, or nothing if none has been saved. -/
def Newest {P : Type} (same : P → P → Prop) (saved : List (ProjectionSnapshot P)) :
    Option (ProjectionSnapshot P) → Prop
  | none => saved = []
  | some loaded => ∃ position, loaded.cursor.globalPosition = some position ∧
      (∃ snapshot ∈ saved, SameSnapshot same loaded snapshot) ∧
      ∀ snapshot ∈ saved, ∃ n, snapshot.cursor.globalPosition = some n ∧ n ≤ position ∧
        (n = position → SameSnapshot same loaded snapshot)

variable {ι : Type} [DecidableEq ι] {P : ι → Type} {stores : (i : ι) → FileSnapshotStore (P i)}
  {directory next : Directory} {saved : (i : ι) → List (ProjectionSnapshot (P i))} {i : ι}

/-- The calls of several stores on one directory, which is empty at first. -/
inductive Run (stores : (i : ι) → FileSnapshotStore (P i)) :
    Directory → ((i : ι) → List (ProjectionSnapshot (P i))) → Prop
  | start : Run stores (fun _ => none) fun _ => []
  | saved {directory next : Directory} {saved : (i : ι) → List (ProjectionSnapshot (P i))} {i : ι}
      (ticket : Ticket) (snapshot : ProjectionSnapshot (P i)) (h : Run stores directory saved)
      (hsave : save (stores i) ticket snapshot directory = .ok () next) :
      Run stores next (Function.update saved i (snapshot :: saved i))
  | refused {directory next : Directory} {saved : (i : ι) → List (ProjectionSnapshot (P i))} {i : ι}
      (ticket : Ticket) (snapshot : ProjectionSnapshot (P i)) {e : MemoryError} (h : Run stores directory saved)
      (hsave : save (stores i) ticket snapshot directory = .error e next) : Run stores next saved
  | loaded {directory : Directory} {saved : (i : ι) → List (ProjectionSnapshot (P i))} (i : ι)
      {entries : List String} {result : Result (Option (ProjectionSnapshot (P i)))} (h : Run stores directory saved)
      (hentries : Lists directory entries) (hload : loadLatest (stores i) directory entries = result) :
      Run stores directory saved

structure Kept (stores : (i : ι) → FileSnapshotStore (P i)) (directory : Directory)
    (saved : (i : ι) → List (ProjectionSnapshot (P i))) : Prop where
  sound : ∀ name, directory name ≠ none → ∃ i position, name = finalPath (stores i).filePrefix position ∧
    ∃ snapshot ∈ saved i, snapshot.cursor.globalPosition = some position
  complete : ∀ i, ∀ snapshot ∈ saved i, ∃ position frame, snapshot.cursor.globalPosition = some position ∧
    encodeFrame (stores i) snapshot = .ok frame ∧
    directory (finalPath (stores i).filePrefix position) = some frame

omit [DecidableEq ι] in
theorem Kept.named (h : Kept stores directory saved) : Named directory := by
  intro name hfile
  obtain ⟨i, position, hname, -⟩ := h.sound name hfile
  exact ⟨_, position, hname⟩

theorem save_eq_ok {P : Type} {store : FileSnapshotStore P} {ticket : Ticket} {snapshot : ProjectionSnapshot P}
    (htidy : Tidy directory) (h : save store ticket snapshot directory = .ok () next) :
    ∃ position frame, snapshot.cursor.globalPosition = some position ∧ encodeFrame store snapshot = .ok frame ∧
      next (finalPath store.filePrefix position) = some frame ∧
      (∀ name file, directory name = some file → next name = some file) ∧
      ∀ name, next name ≠ none → directory name ≠ none ∨ name = finalPath store.filePrefix position := by
  cases hp : snapshot.cursor.globalPosition with
  | none =>
      rw [save_eq_error (.inl (by rw [requirePosition, hp]))] at h
      cases h
  | some position =>
      cases hf : encodeFrame store snapshot with
      | error e =>
          rw [save_eq_error (.inr ⟨hf, by rw [hp]; exact Option.some_ne_none position⟩)] at h
          cases h
      | ok frame =>
          refine ⟨position, frame, rfl, rfl, ?_⟩
          rw [save_eq hp hf htidy] at h
          split at h
          next existing hd =>
            split at h
            next heq =>
              obtain ⟨-, rfl⟩ := EStateM.Result.ok.inj h
              exact ⟨heq ▸ hd, fun _ _ hfile => hfile, fun _ hfile => .inl hfile⟩
            next => cases h
          next hd =>
            obtain ⟨-, rfl⟩ := EStateM.Result.ok.inj h
            refine ⟨Function.update_self _ _ _, fun name file hfile => ?_, fun name hfile => ?_⟩
            · have hne : name ≠ finalPath store.filePrefix position := by
                rintro rfl
                rw [hd] at hfile
                cases hfile
              rwa [Function.update_of_ne hne]
            · by_cases hname : name = finalPath store.filePrefix position
              · exact .inr hname
              · rw [Function.update_of_ne hname] at hfile
                exact .inl hfile

theorem save_eq_error_same {P : Type} {store : FileSnapshotStore P} {ticket : Ticket}
    {snapshot : ProjectionSnapshot P} {e : MemoryError} (htidy : Tidy directory)
    (h : save store ticket snapshot directory = .error e next) : next = directory := by
  cases hp : snapshot.cursor.globalPosition with
  | none =>
      rw [save_eq_error (.inl (by rw [requirePosition, hp]))] at h
      exact (EStateM.Result.error.inj h).2.symm
  | some position =>
      cases hf : encodeFrame store snapshot with
      | error e =>
          rw [save_eq_error (.inr ⟨hf, by rw [hp]; exact Option.some_ne_none position⟩)] at h
          exact (EStateM.Result.error.inj h).2.symm
      | ok frame =>
          rw [save_eq hp hf htidy] at h
          split at h
          next =>
            split at h
            next => cases h
            next => exact (EStateM.Result.error.inj h).2.symm
          next => cases h

theorem Kept.save (h : Kept stores directory saved) {ticket : Ticket} {snapshot : ProjectionSnapshot (P i)}
    (hsave : File.save (stores i) ticket snapshot directory = .ok () next) :
    Kept stores next (Function.update saved i (snapshot :: saved i)) := by
  obtain ⟨position, frame, hposition, hframe, hfinal, hold, hnew⟩ := save_eq_ok h.named.tidy hsave
  constructor
  · intro name hfile
    obtain hfile | rfl := hnew name hfile
    · obtain ⟨j, n, hname, other, hother, hn⟩ := h.sound name hfile
      refine ⟨j, n, hname, other, ?_, hn⟩
      by_cases hj : j = i
      · subst hj
        rw [Function.update_self]
        exact List.mem_cons_of_mem _ hother
      · rwa [Function.update_of_ne hj]
    · refine ⟨i, position, rfl, snapshot, ?_, hposition⟩
      rw [Function.update_self]
      exact List.mem_cons_self
  · intro j other hother
    have hcases : other ∈ saved j ∨ j = i ∧ HEq other snapshot := by
      by_cases hj : j = i
      · subst hj
        rw [Function.update_self, List.mem_cons] at hother
        obtain rfl | hother := hother
        · exact .inr ⟨rfl, .rfl⟩
        · exact .inl hother
      · rw [Function.update_of_ne hj] at hother
        exact .inl hother
    obtain hother | ⟨rfl, heq⟩ := hcases
    · obtain ⟨n, file, hn, hencoded, hfile⟩ := h.complete j other hother
      exact ⟨n, file, hn, hencoded, hold _ _ hfile⟩
    · obtain rfl := eq_of_heq heq
      exact ⟨position, frame, hposition, hframe, hfinal⟩

theorem Run.kept (h : Run stores directory saved) : Kept stores directory saved := by
  induction h with
  | start => exact ⟨fun _ hfile => absurd rfl hfile, fun _ _ hmem => absurd hmem List.not_mem_nil⟩
  | saved ticket snapshot _ hsave ih => exact ih.save hsave
  | refused ticket snapshot _ hsave ih =>
      rw [save_eq_error_same ih.named.tidy hsave]
      exact ih
  | loaded i _ _ _ ih => exact ih

theorem readPath_holds {P : Type} {store : FileSnapshotStore P} {same : P → P → Prop}
    (hinverts : Inverts store.codec same) {snapshot : ProjectionSnapshot P} {position : UInt64} {frame : Vec UInt8}
    (hposition : snapshot.cursor.globalPosition = some position) (hframe : encodeFrame store snapshot = .ok frame)
    {path : String} (hfile : directory path = some frame) :
    ∃ loaded, readPath store directory path position = .ok loaded ∧
      loaded.cursor.globalPosition = some position ∧
      ∀ other, encodeFrame store other = .ok frame → SameSnapshot same loaded other := by
  obtain ⟨bytes, hbytes, hmax, hitems⟩ := encodeFrame_eq_ok hframe
  obtain ⟨loaded, hloaded, hsame⟩ := hinverts snapshot bytes hbytes
  have hcursor : loaded.cursor.globalPosition = some position := by rw [hsame.1, hposition]
  refine ⟨loaded, readPath_eq hfile hitems hmax hloaded hcursor, hcursor, fun other hother => ?_⟩
  obtain ⟨bytes', hbytes', -, hitems'⟩ := encodeFrame_eq_ok hother
  rw [hitems, frameOf_inj] at hitems'
  obtain ⟨loaded', hloaded', hsame'⟩ := hinverts other bytes' hbytes'
  rw [← hitems', hloaded, Except.ok.injEq] at hloaded'
  rw [hloaded']
  exact hsame'

omit [DecidableEq ι] in
theorem Kept.loadLatest (h : Kept stores directory saved) {same : (i : ι) → P i → P i → Prop}
    (hdistinct : Function.Injective fun i => (stores i).filePrefix)
    (hinverts : ∀ i, Inverts (stores i).codec (same i)) (i : ι) {entries : List String}
    (hentries : Lists directory entries) :
    ∃ latest, File.loadLatest (stores i) directory entries = .ok latest ∧ Newest (same i) (saved i) latest := by
  cases hl : latestPath (stores i).filePrefix entries with
  | none =>
      refine ⟨none, by rw [File.loadLatest, hl], ?_⟩
      refine List.eq_nil_iff_forall_not_mem.mpr fun snapshot hmem => ?_
      obtain ⟨position, frame, -, -, hfile⟩ := h.complete i snapshot hmem
      rw [latestPath_eq_none hentries hl] at hfile
      cases hfile
  | some current =>
      obtain ⟨position, path⟩ := current
      obtain ⟨rfl, hfile, hmax⟩ := latestPath_eq_some h.named hentries hl
      obtain ⟨j, n, hname, snapshot, hmem, hn⟩ := h.sound _ hfile
      obtain ⟨howner, rfl⟩ := finalPath_inj.mp hname
      obtain rfl := hdistinct howner
      obtain ⟨m, frame, hm, hframe, hkept⟩ := h.complete i snapshot hmem
      obtain rfl : m = position := Option.some.inj (hm.symm.trans hn)
      obtain ⟨loaded, hread, hloaded, hsame⟩ := readPath_holds (hinverts i) hm hframe hkept
      refine ⟨some loaded, ?_, m, hloaded, ⟨snapshot, hmem, hsame snapshot hframe⟩, fun other hother => ?_⟩
      · rw [File.loadLatest, hl]
        dsimp only
        rw [hread]
        rfl
      · obtain ⟨k, file, hk, hencoded, hother⟩ := h.complete i other hother
        refine ⟨k, hk, hmax k (by rw [hother]; exact Option.some_ne_none file), ?_⟩
        rintro rfl
        rw [hkept, Option.some.injEq] at hother
        exact hsame other (hother ▸ hencoded)

/-- Whatever stores share the directory and whatever calls have been made, a store loads the newest
of the snapshots that it has saved itself, from a file of its own. -/
theorem loadLatest_newest (stores : (i : ι) → FileSnapshotStore (P i)) (same : (i : ι) → P i → P i → Prop)
    (hdistinct : Function.Injective fun i => (stores i).filePrefix)
    (hinverts : ∀ i, Inverts (stores i).codec (same i)) (directory : Directory)
    (saved : (i : ι) → List (ProjectionSnapshot (P i))) (h : Run stores directory saved) (i : ι)
    (entries : List String) (hentries : Lists directory entries) :
    (∃ latest, File.loadLatest (stores i) directory entries = .ok latest ∧ Newest (same i) (saved i) latest) ∧
      ∀ position path, latestPath (stores i).filePrefix entries = some (position, path) →
        path = finalPath (stores i).filePrefix position ∧
        ∀ j, j ≠ i → ∀ n, path ≠ finalPath (stores j).filePrefix n := by
  refine ⟨h.kept.loadLatest hdistinct hinverts i hentries, fun position path hl => ?_⟩
  obtain ⟨rfl, -, -⟩ := latestPath_eq_some h.kept.named hentries hl
  refine ⟨rfl, fun j hj n heq => ?_⟩
  obtain ⟨howner, -⟩ := finalPath_inj.mp heq
  exact hj (hdistinct howner).symm

def positionCodec : Codec (ProjectionSnapshot Unit) where
  encode snapshot :=
    match snapshot.cursor.globalPosition with
    | none => .error (.codec "no position")
    | some position =>
        if snapshot.cursor.streamVersions.isEmpty then
          .ok ⟨Words.leBytes 8 position.toNat, by rw [Words.length_leBytes]; decide⟩
        else .error (.codec "stream versions")
  decode bytes := .ok ⟨⟨some (UInt64.ofNat (Words.leValue bytes)), ∅⟩, ()⟩

theorem positionCodec_inverts : Inverts positionCodec Eq := by
  intro snapshot bytes h
  obtain ⟨⟨globalPosition, streamVersions⟩, projection⟩ := snapshot
  cases globalPosition with
  | none => cases h
  | some position =>
      simp only [positionCodec] at h
      split at h
      next hempty =>
        refine ⟨_, rfl, ?_, rfl⟩
        have hvalue : Words.leValue (Words.leBytes 8 position.toNat) = position.toNat :=
          Words.leValue_leBytes position.toNat_lt
        rw [← Except.ok.inj h, Std.ExtTreeMap.isEmpty_iff.mp hempty]
        dsimp only
        rw [hvalue, UInt64.ofNat_toNat]
      next => cases h

def positionStore (filePrefix : String) (h : ValidPrefix filePrefix) : FileSnapshotStore Unit :=
  ⟨filePrefix, positionCodec, ⟨1024⟩, false, h, by decide⟩

def twoStores : Bool → FileSnapshotStore Unit
  | true => positionStore "a" (by decide +kernel)
  | false => positionStore "a-+1" (by decide +kernel)

def positionSnapshot (position : UInt64) : ProjectionSnapshot Unit := ⟨⟨some position, ∅⟩, ()⟩

theorem lists_two {a b : String} (h : a ≠ b) (first second : Vec UInt8) :
    Lists (Function.update (Function.update (fun _ => none) a (some first)) b (some second)) [b, a] := by
  refine ⟨List.nodup_cons.mpr ⟨?_, List.nodup_singleton _⟩, fun name => ?_⟩
  · exact fun hmem => h (List.mem_singleton.mp hmem).symm
  · by_cases hb : name = b
    · simp [hb]
    · by_cases ha : name = a
      · simp [ha, Function.update_of_ne h]
      · simp [ha, hb]

theorem loadLatest_newest_two : ∃ directory saved entries, Run twoStores directory saved ∧
    saved true = [positionSnapshot 18446744073709551615] ∧ saved false = [positionSnapshot 5] ∧
    (∃ latest, loadLatest (twoStores true) directory entries = .ok latest ∧ Newest Eq (saved true) latest) ∧
    ∀ position path, latestPath (twoStores true).filePrefix entries = some (position, path) →
      path = finalPath (twoStores true).filePrefix position ∧
      ∀ j, j ≠ true → ∀ n, path ≠ finalPath (twoStores j).filePrefix n := by
  obtain ⟨first, hfirst⟩ : ∃ frame, encodeFrame (twoStores true) (positionSnapshot 18446744073709551615) =
    .ok frame := exists_ok_of_isOk (by decide +kernel)
  obtain ⟨second, hsecond⟩ : ∃ frame, encodeFrame (twoStores false) (positionSnapshot 5) = .ok frame :=
    exists_ok_of_isOk (by decide +kernel)
  have hdistinct : Function.Injective fun i => (twoStores i).filePrefix := by
    have hall : ∀ i j, (twoStores i).filePrefix = (twoStores j).filePrefix → i = j := by decide +kernel
    exact fun i j => hall i j
  have hpaths : finalPath (twoStores true).filePrefix 18446744073709551615 ≠
      finalPath (twoStores false).filePrefix 5 := by decide +kernel
  have hrun := Run.saved ⟨0, 0⟩ _ (@Run.start _ _ _ twoStores)
    (save_eq rfl hfirst (fun _ _ => rfl) ⟨0, 0⟩)
  have hsave := save_eq rfl hsecond hrun.kept.named.tidy ⟨0, 1⟩
  rw [Function.update_of_ne hpaths.symm] at hsave
  have hrun' := Run.saved ⟨0, 1⟩ _ hrun hsave
  have hentries := lists_two hpaths first second
  refine ⟨_, _, _, hrun', ?_, ?_, loadLatest_newest twoStores (fun _ => Eq) hdistinct ?_ _ _ hrun' true _ hentries⟩
  · rfl
  · rfl
  · rintro (_ | _) <;> exact positionCodec_inverts

end WeavatrixMemory.Snapshot.Generations
