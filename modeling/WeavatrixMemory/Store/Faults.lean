import Mathlib.Logic.Relation
import WeavatrixMemory.Store.Recovery
import WeavatrixMemory.Store.Clients

namespace WeavatrixMemory.Store.Faults

open Error Identity Domain Outcome Files Blocks Logs Store.Frame Framing Scan File InMemory EventLog Commit Relation

variable {E α : Type}

/-- The process has stopped, or the rollback could not set the length of the file. -/
def unrestored : MemoryError → Bool
  | .stopped => true
  | .io operation _ => operation = "rollback partial event batch"
  | _ => false

inductive Persisted (store : FileEventStore E) (events : List (StoredEvent E)) : FileEventStore E → Prop
  | empty (h : events = []) : Persisted store events store
  | written {frame : Vec UInt8} {file : Files.File} {durableLen : UInt64} (hne : events ≠ [])
      (hframe : encodeBatch events store.codec store.options.maxFrameBytes = .ok frame)
      (hend : store.file.bytes.length = store.durableLen.toNat)
      (hbytes : file.bytes = store.file.bytes ++ frame.items)
      (hdurable : durableLen.toNat = file.bytes.length) :
      Persisted store events { store with file := file, durableLen := durableLen }

/-- The file is as it was, or a beginning of the frame is left at its end. -/
def Leaves (store : FileEventStore E) (events : List (StoredEvent E)) (e : MemoryError) (file : Files.File) : Prop :=
  file.bytes = store.file.bytes ∨ unrestored e = true ∧ ∃ frame part,
    encodeBatch events store.codec store.options.maxFrameBytes = .ok frame ∧ part <+: frame.items ∧
      store.file.bytes.length = store.durableLen.toNat ∧ file.bytes = store.file.bytes ++ part

/-- Nothing but the file of the store has changed. -/
def OnFile (store : FileEventStore E) (post : Files.File → Prop) (t : FileEventStore E) : Prop :=
  ∃ g, t = { store with file := g } ∧ post g

theorem io_error {operation : String} {call : FileM α} {file g : Files.File} {e : MemoryError}
    (h : io operation call file = .error e g) : e = .stopped ∨ ∃ message, e = .io operation message := by
  rw [io] at h
  cases hc : call file with
  | ok a t =>
      rw [hc] at h
      cases h
  | error fault t =>
      rw [hc] at h
      cases fault with
      | failed message =>
          cases h
          exact .inr ⟨message, rfl⟩
      | stopped =>
          cases h
          exact .inl rfl

theorem onFile_ends (store : FileEventStore E) {good : α → Files.File → Prop}
    {bad : MemoryError → Files.File → Prop} {call : Update Files.File α} (h : Ends good bad (call store.file)) :
    Ends (fun a => OnFile store (good a)) (fun e => OnFile store (bad e)) (onFile call store) := by
  rw [onFile]
  cases hc : call store.file with
  | ok a g => exact ⟨g, rfl, h.of_ok hc⟩
  | error e g => exact ⟨g, rfl, h.of_error hc⟩

theorem rollbackTail_ends {store : FileEventStore E} (hle : store.durableLen.toNat ≤ store.file.bytes.length) :
    Ends (fun _ => OnFile store fun g => g.bytes = store.file.bytes.take store.durableLen.toNat)
      (fun e => OnFile store fun g => g.bytes = store.file.bytes.take store.durableLen.toNat ∨
        g.bytes = store.file.bytes ∧ unrestored e = true) (rollbackTail store) := by
  rw [rollbackTail, bind_apply, get_apply]
  have hset : Ends (fun _ g => g.bytes = store.file.bytes.take store.durableLen.toNat)
      (fun e g => g.bytes = store.file.bytes ∧ unrestored e = true)
      (io "rollback partial event batch" (setLen store.durableLen.toNat) store.file) := by
    have hio := @io_interrupted _ _ _ "rollback partial event batch" _ (setLen_ends hle)
    cases hc : io "rollback partial event batch" (setLen store.durableLen.toNat) store.file with
    | ok a g => exact (hio.of_ok hc).1
    | error e g =>
        refine ⟨(hio.of_error hc).1, ?_⟩
        obtain rfl | ⟨message, rfl⟩ := io_error hc
        · rfl
        · rfl
  apply Ends.bind ((onFile_ends store hset).mono (fun _ _ h => h) ?_)
  · intro _ _ h
    obtain ⟨g, rfl, hg⟩ := h
    apply Ends.bind ((onFile_ends { store with file := g } (io_interrupted (seek_ends _ g))).mono (fun _ _ h => h) ?_)
    · intro _ _ h
      obtain ⟨t, rfl, ht⟩ := h
      apply (onFile_ends { store with file := t } (sync_interrupted store.options.durability t)).mono
      · intro _ _ h
        obtain ⟨u, rfl, hu⟩ := h
        exact ⟨u, rfl, hu.bytes.trans (ht.1.bytes.trans hg)⟩
      · intro _ _ h
        obtain ⟨u, rfl, hu⟩ := h
        exact ⟨u, rfl, .inl (hu.1.trans (ht.1.bytes.trans hg))⟩
    · intro _ _ h
      obtain ⟨t, rfl, ht⟩ := h
      exact ⟨t, rfl, .inl (ht.1.trans hg)⟩
  · intro _ _ h
    obtain ⟨g, rfl, hg⟩ := h
    exact ⟨g, rfl, .inr hg⟩

theorem io_kept {operation : String} (hother : operation ≠ "rollback partial event batch") (call : FileM α)
    (file : Files.File) :
    Ends (fun _ _ => True) (fun e _ => unrestored e = true → e = .stopped) (io operation call file) := by
  cases hc : io operation call file with
  | ok a g => exact trivial
  | error e g =>
      intro hunrestored
      obtain rfl | ⟨message, rfl⟩ := io_error hc
      · rfl
      · exact absurd (of_decide_eq_true hunrestored) hother

theorem sync_kept (durability : Durability) (file : Files.File) :
    Ends (fun _ _ => True) (fun e _ => unrestored e = true → e = .stopped) (File.sync durability file) := by
  cases durability with
  | flush => exact trivial
  | syncData => exact io_kept (by decide) _ file
  | syncAll => exact io_kept (by decide) _ file

def Unset (store : FileEventStore E) : Prop :=
  ∃ message g, setLen store.durableLen.toNat store.file = .error (.failed message) g

theorem rollbackTail_failed {store : FileEventStore E} {message : String} {g : Files.File}
    (h : setLen store.durableLen.toNat store.file = .error (.failed message) g) :
    rollbackTail store = .error (.io "rollback partial event batch" message) { store with file := g } := by
  have hcall : io "rollback partial event batch" (setLen store.durableLen.toNat) store.file =
      .error (.io "rollback partial event batch" message) g := by rw [io, h]
  rw [rollbackTail, bind_apply, get_apply]
  simp only [bind_apply, onFile, hcall]

/-- Unless the process stops, a rollback ends so exactly where the length of the file could not be set. -/
theorem unrestored_rollbackTail {store t : FileEventStore E} {e : MemoryError} (h : rollbackTail store = .error e t) :
    unrestored e = true ↔ e = .stopped ∨ Unset store := by
  constructor
  · have hset : Ends (fun _ _ => True) (fun e _ => unrestored e = true → e = .stopped ∨ Unset store)
        (io "rollback partial event batch" (setLen store.durableLen.toNat) store.file) := by
      cases hcall : setLen store.durableLen.toNat store.file with
      | ok u g => simp only [io, hcall, Ends]
      | error fault g =>
          cases fault with
          | failed message =>
              simp only [io, hcall]
              exact fun _ => .inr ⟨message, g, hcall⟩
          | stopped =>
              simp only [io, hcall]
              exact fun _ => .inl rfl
    have htail : Ends (fun _ _ => True) (fun e _ => unrestored e = true → e = .stopped ∨ Unset store)
        (rollbackTail store) := by
      rw [rollbackTail, bind_apply, get_apply]
      apply Ends.bind ((onFile_ends store hset).mono (fun _ _ _ => trivial) fun _ _ he => he.choose_spec.2)
      intro _ u _
      have hseek := onFile_ends u (@io_kept _ "seek after rollback" (by decide) (seek store.durableLen.toNat) u.file)
      apply Ends.bind (hseek.mono (fun _ _ _ => trivial) fun _ _ he hunrestored => .inl (he.choose_spec.2 hunrestored))
      intro _ v _
      exact (onFile_ends v (sync_kept store.options.durability v.file)).mono (fun _ _ _ => trivial)
        fun _ _ he hunrestored => .inl (he.choose_spec.2 hunrestored)
    exact htail.of_error h
  · rintro (rfl | ⟨message, g, hfailed⟩)
    · rfl
    · rw [rollbackTail_failed hfailed] at h
      cases h
      rfl

theorem rollBack_ends {store : FileEventStore E} {call : Update (FileEventStore E) Unit} {bytes frame : List UInt8}
    {good : Files.File → Prop} (hlen : bytes.length = store.durableLen.toNat)
    (hcall : Ends (fun _ => OnFile store good)
      (fun e => OnFile store fun g => e ≠ .panicked ∧ ∃ part, part <+: frame ∧ g.bytes = bytes ++ part) (call store)) :
    Ends (fun _ => OnFile store good) (fun e => OnFile store fun g =>
      g.bytes = bytes ∨ unrestored e = true ∧ ∃ part, part <+: frame ∧ g.bytes = bytes ++ part)
      (onError call rollBack store) := by
  rw [onError]
  cases hc : call store with
  | ok u t => exact hcall.of_ok hc
  | error e t =>
      obtain ⟨g, rfl, hpanicked, part, hpart, hg⟩ := hcall.of_error hc
      by_cases hstopped : e = .stopped
      · subst hstopped
        exact ⟨g, rfl, .inr ⟨rfl, part, hpart, hg⟩⟩
      · have hreturned : ¬ (e = .panicked ∨ e = .stopped) := not_or.mpr ⟨hpanicked, hstopped⟩
        have hrestored : g.bytes.take store.durableLen.toNat = bytes := by rw [hg, ← hlen, List.take_left]
        have hle : store.durableLen.toNat ≤ g.bytes.length := by
          rw [hg, List.length_append, hlen]
          exact Nat.le_add_right _ _
        have htail := @rollbackTail_ends _ { store with file := g } hle
        simp only [if_neg hreturned]
        rw [rollBack]
        apply Ends.bind (htail.mono (fun _ _ h => h) ?_)
        · intro _ _ h
          obtain ⟨t, rfl, ht⟩ := h
          exact ⟨t, rfl, .inl (ht.trans hrestored)⟩
        · intro e' _ h
          obtain ⟨t, rfl, ht⟩ := h
          refine ⟨t, rfl, ht.imp (fun ht => ht.trans hrestored) fun ht => ⟨ht.2, part, hpart, ht.1.trans hg⟩⟩

theorem written_length {store : FileEventStore E} {frame : Vec UInt8} {g : Files.File}
    (hend : store.file.bytes.length = store.durableLen.toNat) (hbytes : g.bytes = store.file.bytes ++ frame.items) :
    u64TryFrom frame.items.length = .ok (UInt64.ofNat frame.items.length) ∧
      checkedAdd store.durableLen (UInt64.ofNat frame.items.length) =
        .ok (store.durableLen + UInt64.ofNat frame.items.length) ∧
      (store.durableLen + UInt64.ofNat frame.items.length).toNat = g.bytes.length := by
  have hfits := g.fits
  have hframe := frame.fits
  rw [hbytes, List.length_append, hend] at hfits
  have hlength : u64TryFrom frame.items.length = .ok (UInt64.ofNat frame.items.length) := by
    rw [u64TryFrom, if_pos (by omega)]
  have htoNat : (UInt64.ofNat frame.items.length).toNat = frame.items.length := u64TryFrom_eq_ok.mp hlength
  have hsum : checkedAdd store.durableLen (UInt64.ofNat frame.items.length) =
      .ok (store.durableLen + UInt64.ofNat frame.items.length) := by
    rw [checkedAdd_eq_ok, UInt64.toNat_add, htoNat]
    omega
  refine ⟨hlength, hsum, ?_⟩
  rw [checkedAdd_eq_ok.mp hsum, htoNat, hbytes, List.length_append, hend]

theorem writeFrame_ends {store : FileEventStore E} {events : List (StoredEvent E)} {frame : Vec UInt8}
    {g : Files.File} (hne : events ≠ [])
    (hframe : encodeBatch events store.codec store.options.maxFrameBytes = .ok frame)
    (hend : store.file.bytes.length = store.durableLen.toNat) (hg : g.bytes = store.file.bytes) :
    Ends (fun _ => Persisted store events) (fun e => OnFile store (Leaves store events e))
      ((do
        onFile (io "seek append position" (seek store.durableLen.toNat))
        onError (onFile (io "append event batch" (writeAll frame.items))) rollBack
        onError (onFile (sync store.options.durability)) rollBack
        let frameLen ← u64TryFrom frame.items.length
        let durableLen ← checkedAdd store.durableLen frameLen
        modify fun store => { store with durableLen := durableLen } : Update (FileEventStore E) Unit)
        { store with file := g }) := by
  have hleaves : ∀ {e h}, (h.bytes = store.file.bytes ∨ unrestored e = true ∧ ∃ part, part <+: frame.items ∧
      h.bytes = store.file.bytes ++ part) → Leaves store events e h := by
    intro e h hh
    refine hh.imp id fun hh => ⟨hh.1, ?_⟩
    obtain ⟨-, part, hpart, hbytes⟩ := hh
    exact ⟨frame, part, hframe, hpart, hend, hbytes⟩
  have hseek := onFile_ends { store with file := g }
    (@io_interrupted _ _ _ "seek append position" _ (seek_ends store.durableLen.toNat g))
  apply Ends.bind (hseek.mono (fun _ _ h => h) ?_)
  · intro _ _ h
    obtain ⟨u, rfl, hu, hposition⟩ := h
    have hubytes := hu.bytes.trans hg
    have hend' : u.position = u.bytes.length := by rw [hposition, hubytes, hend]
    have hwrite := onFile_ends { store with file := u }
      (@io_ends _ _ _ _ "append event batch" _ (writeAll_ends hend' frame.items))
    rw [hubytes] at hwrite
    apply Ends.bind ((@rollBack_ends _ { store with file := u } _ _ frame.items _ hend
      (hwrite.mono (fun _ _ h => h) ?_)).mono (fun _ _ h => h) ?_)
    · intro _ _ h
      obtain ⟨v, rfl, hv⟩ := h
      have hsync := onFile_ends { store with file := v } (sync_interrupted store.options.durability v)
      apply Ends.bind ((@rollBack_ends _ { store with file := v } _ _ frame.items _ hend
        (hsync.mono (fun _ _ h => h) ?_)).mono (fun _ _ h => h) ?_)
      · intro _ _ h
        obtain ⟨w, rfl, hw⟩ := h
        have hwbytes := hw.bytes.trans hv
        obtain ⟨hlength, hsum, hdurable⟩ := written_length hend hwbytes
        simp only [hlength, hsum, bind_apply, liftM_eq, ofResult_ok, modify_apply]
        exact .written hne hframe hend hwbytes hdurable
      · intro e _ h
        obtain ⟨w, rfl, hw⟩ := h
        exact ⟨w, rfl, hw.2.2, frame.items, List.prefix_refl _, hw.1.trans hv⟩
      · intro e _ h
        obtain ⟨w, rfl, hw⟩ := h
        exact ⟨w, rfl, hleaves hw⟩
    · intro e _ h
      obtain ⟨v, rfl, hpanicked, _, n, hv⟩ := h
      exact ⟨v, rfl, hpanicked, _, List.take_prefix n _, hv⟩
    · intro e _ h
      obtain ⟨v, rfl, hv⟩ := h
      exact ⟨v, rfl, hleaves hv⟩
  · intro e _ h
    obtain ⟨u, rfl, hu⟩ := h
    exact ⟨u, rfl, .inl (hu.1.trans hg)⟩

theorem persist_ends (store : FileEventStore E) (events : List (StoredEvent E)) :
    Ends (fun _ => Persisted store events) (fun e => OnFile store (Leaves store events e))
      (persist events store) := by
  rw [persist]
  by_cases hempty : events = []
  · subst hempty
    exact .empty rfl
  · have hevents : ¬ events.isEmpty = true := fun h => hempty (List.isEmpty_iff.mp h)
    rw [if_neg hevents, bind_apply, get_apply]
    have hlength := onFile_ends store (@io_interrupted _ _ _ "read event log metadata" _ (length_ends store.file))
    apply Ends.bind (hlength.mono (fun _ _ h => h) ?_)
    · intro actualLen _ h
      obtain ⟨g, rfl, hg, -, rfl⟩ := h
      by_cases hend : store.file.bytes.length = store.durableLen.toNat
      · rw [throwIf_of_not (not_not.mpr hend)]
        cases hframe : encodeBatch events store.codec store.options.maxFrameBytes with
        | error e => exact ⟨g, rfl, .inl hg.bytes⟩
        | ok frame =>
            exact writeFrame_ends hempty hframe hend hg.bytes
      · have herror : throwIf (store.file.bytes.length ≠ store.durableLen.toNat) .externalModification =
            .error .externalModification := if_pos hend
        rw [herror]
        exact ⟨g, rfl, .inl hg.bytes⟩
    · intro e _ h
      obtain ⟨g, rfl, hg⟩ := h
      exact ⟨g, rfl, .inl hg.1⟩

def appendBy (stream : StreamId) (expected : ExpectedVersion) (batch : List (NewEvent E)) :
    Clients.AppendPath → Update (FileEventStore E) Unit
  | .borrowed => do let _ ← File.append stream expected batch
  | .owned => do let _ ← File.appendOwned stream expected batch
  | .receipt => do let _ ← File.appendOwnedReceipt stream expected batch

theorem appendBy_eq (stream : StreamId) (expected : ExpectedVersion) (batch : List (NewEvent E))
    (path : Clients.AppendPath) : appendBy stream expected batch path = (do
      let store ← get
      let committed ← prepareAppend store.inner stream expected batch
      persist committed
      modify fun store => { store with inner := commitPrepared committed store.inner }) := by
  funext store
  cases path <;> simp only [appendBy, File.append, File.appendOwned, File.appendOwnedReceipt, bind_apply, get_apply,
    prepareAppendOwned_eq, commitPreparedOwned_eq]
  all_goals
    cases prepareAppend store.inner stream expected batch with
    | error e => rfl
    | ok committed =>
        simp only [liftM_eq, ofResult_ok]
        cases persist committed store <;> rfl

theorem appendBy_ends {log : List (StoredEvent E)} (hl : Lawful Continues log) {store : FileEventStore E}
    (hinner : store.inner = ofLog log) (stream : StreamId) (expected : ExpectedVersion) (batch : List (NewEvent E))
    (path : Clients.AppendPath) :
    Ends (fun _ t => ∃ committed u, Committable log stream batch committed ∧ Persisted store committed u ∧
        t = { u with inner := ofLog (log ++ committed) })
      (fun e => OnFile store fun g => g.bytes = store.file.bytes ∨
        ∃ committed, Committable log stream batch committed ∧ Leaves store committed e g)
      (appendBy stream expected batch path store) := by
  rw [appendBy_eq, bind_apply, get_apply]
  simp only [hinner]
  cases hc : prepareAppend (ofLog log) stream expected batch with
  | error e => exact ⟨store.file, rfl, .inl rfl⟩
  | ok committed =>
      have hcommittable := (prepareAppend_committable hl hc).1
      change Ends _ _ ((persist committed >>= fun _ => modify fun store =>
        { store with inner := commitPrepared committed store.inner }) store)
      apply Ends.bind ((persist_ends store committed).mono (fun _ _ h => h) ?_)
      · intro _ u hu
        refine ⟨committed, u, hcommittable, hu, ?_⟩
        have hinner' : u.inner = ofLog log := by cases hu <;> exact hinner
        change { u with inner := commitPrepared committed u.inner } = _
        rw [hinner', commitPrepared_ofLog hcommittable.stream]
      · intro e u hu
        obtain ⟨g, rfl, hg⟩ := hu
        exact ⟨g, rfl, .inr ⟨committed, hcommittable, hg⟩⟩

end WeavatrixMemory.Store.Faults
