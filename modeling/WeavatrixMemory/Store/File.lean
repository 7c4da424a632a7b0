import WeavatrixMemory.Store.Commit
import WeavatrixMemory.Store.Scan

namespace WeavatrixMemory.Store.File

open Error Identity Domain Outcome Files Store.Frame Scan InMemory

variable {E α : Type}

inductive RecoveryPolicy
  | strict
  | truncatePartialTail
deriving DecidableEq

inductive Durability
  | flush
  | syncData
  | syncAll
deriving DecidableEq

structure FileStoreOptions where
  recovery : RecoveryPolicy
  durability : Durability
  maxFrameBytes : Nat

structure FileEventStore (E : Type) where
  file : Files.File
  codec : Codec (StoredEvent E)
  options : FileStoreOptions
  inner : InMemoryStore E
  durableLen : UInt64

def sync : Durability → Update Files.File Unit
  | .flush => pure ()
  | .syncData => io "sync event log" Files.sync
  | .syncAll => io "sync event log data and metadata" Files.sync

/-- The first part of `open`: to get hold of the file, with a header in it, and to read it. -/
def openScanned (codec : Codec (StoredEvent E)) (options : FileStoreOptions) :
    Update Files.File (ScanOutcome E) := do
  throwIf (options.maxFrameBytes < 4) (.invalidValue "max_frame_bytes" "must fit at least the event-count field")
  io "open event log" openHandle
  let acquired ← io "lock event log" tryLock
  throwIf (acquired = false) .externalModification
  let length ← io "read event log metadata" length
  if length = 0 then do
    io "write event log header" (writeAll fileHeader)
    sync options.durability
  scan codec options.maxFrameBytes

def truncateTail (options : FileStoreOptions) (durableLen : UInt64) (isPartial : Bool) : Update Files.File Unit :=
  if isPartial then do
    io "truncate partial event batch" (setLen durableLen.toNat)
    sync options.durability
  else pure ()

def openStore (codec : Codec (StoredEvent E)) (options : FileStoreOptions) (events : List (StoredEvent E))
    (durableLen : UInt64) : Update Files.File (FileEventStore E) := do
  io "seek event log end" seekEnd
  let inner ← restore events
  let file ← get
  pure { file := file, codec := codec, options := options, inner := inner, durableLen := durableLen }

/-- The second part: to remove a partial tail, and to build the store. -/
def openRecovered (codec : Codec (StoredEvent E)) (options : FileStoreOptions) (events : List (StoredEvent E))
    (durableLen : UInt64) (isPartial : Bool) : Update Files.File (FileEventStore E) := do
  throwIf (isPartial = true ∧ options.recovery = .strict) (.corruptLog durableLen "partial trailing batch")
  truncateTail options durableLen isPartial
  openStore codec options events durableLen

def openLog (codec : Codec (StoredEvent E)) (options : FileStoreOptions) :
    Update Files.File (FileEventStore E) := do
  let outcome ← openScanned codec options
  match outcome with
  | .complete events durableLen => openRecovered codec options events durableLen false
  | .partialTail events durableLen => openRecovered codec options events durableLen true

def onFile (call : Update Files.File α) : Update (FileEventStore E) α := fun store =>
  match call store.file with
  | .ok a g => .ok a { store with file := g }
  | .error e g => .error e { store with file := g }

/-- `if let Err(error) = call { .. }`. -/
def onError (call : Update α Unit) (handle : MemoryError → Update α Unit) : Update α Unit := fun s =>
  match call s with
  | .ok _ t => .ok () t
  | .error e t => if e = .panicked ∨ e = .stopped then .error e t else handle e t

def rollbackTail : Update (FileEventStore E) Unit := do
  let store ← get
  onFile (io "rollback partial event batch" (setLen store.durableLen.toNat))
  onFile (io "seek after rollback" (seek store.durableLen.toNat))
  onFile (sync store.options.durability)

def rollBack (error : MemoryError) : Update (FileEventStore E) Unit := do
  rollbackTail
  throw error

def persist (events : List (StoredEvent E)) : Update (FileEventStore E) Unit :=
  if events.isEmpty then pure ()
  else do
    let store ← get
    let actualLen ← onFile (io "read event log metadata" length)
    throwIf (actualLen ≠ store.durableLen.toNat) .externalModification
    let frame ← encodeBatch events store.codec store.options.maxFrameBytes
    onFile (io "seek append position" (seek store.durableLen.toNat))
    onError (onFile (io "append event batch" (writeAll frame.items))) rollBack
    onError (onFile (sync store.options.durability)) rollBack
    let frameLen ← u64TryFrom frame.items.length
    let durableLen ← checkedAdd store.durableLen frameLen
    modify fun store => { store with durableLen := durableLen }

def append (stream : StreamId) (expected : ExpectedVersion) (events : List (NewEvent E)) :
    Update (FileEventStore E) (List (StoredEvent E)) := do
  let store ← get
  let committed ← prepareAppend store.inner stream expected events
  persist committed
  modify fun store => { store with inner := commitPrepared committed store.inner }
  pure committed

def appendOwned (stream : StreamId) (expected : ExpectedVersion) (events : List (NewEvent E)) :
    Update (FileEventStore E) (List (StoredEvent E)) := do
  let store ← get
  let committed ← prepareAppendOwned store.inner stream expected events
  persist committed
  modify fun store => { store with inner := commitPrepared committed store.inner }
  pure committed

def appendOwnedReceipt (stream : StreamId) (expected : ExpectedVersion) (events : List (NewEvent E)) :
    Update (FileEventStore E) AppendReceipt := do
  let store ← get
  let committed ← prepareAppendOwned store.inner stream expected events
  persist committed
  let receipt := AppendReceipt.fromEvents committed
  modify fun store => { store with inner := commitPreparedOwned committed store.inner }
  pure receipt

/-- Nothing has been written, and the call does not panic. Unless an operation has failed or the lock
is held, the limit is too small. -/
def Refused (file : Files.File) (options : FileStoreOptions) (e : MemoryError) (g : Files.File) : Prop :=
  g.bytes = file.bytes ∧ e ≠ .panicked ∧ (Faultless file → options.maxFrameBytes < 4)

def Reaches (target : Files.File → EStateM.Result MemoryError Files.File α) (file : Files.File)
    (options : FileStoreOptions) (x : EStateM.Result MemoryError Files.File α) : Prop :=
  (∃ g, Same file g ∧ x = target g) ∨ ∃ e g, x = .error e g ∧ Refused file options e g

theorem reaches_io {β : Type} {target : Files.File → EStateM.Result MemoryError Files.File β}
    {file f : Files.File} {options : FileStoreOptions} {good : α → Files.File → Prop} {operation : String}
    {call : FileM α} {next : α → Update Files.File β} (hs : Same file f)
    (hcall : Ends (fun a g => Same f g ∧ good a g) (Spoiled f) (call f))
    (h : ∀ a g, Same file g → good a g → Reaches target file options (next a g)) :
    Reaches target file options ((io operation call >>= next) f) := by
  have hio := @io_interrupted _ _ _ operation _ hcall
  rw [bind_apply]
  cases hc : io operation call f with
  | ok a g =>
      obtain ⟨hg, hgood⟩ := hio.of_ok hc
      exact h a g (hs.trans hg) hgood
  | error e g =>
      obtain ⟨hbytes, hfaulty, he⟩ := hio.of_error hc
      exact .inr ⟨e, g, rfl, hbytes.trans hs.bytes, he, fun hf => absurd (hs.faultless hf) hfaulty⟩

theorem reaches_check {β : Type} {target : Files.File → EStateM.Result MemoryError Files.File β}
    {file f : Files.File} {options : FileStoreOptions} {c : Prop} [Decidable c] {e : MemoryError}
    {next : Unit → Update Files.File β} (hs : Same file f)
    (he : c → e ≠ .panicked ∧ (Faultless file → options.maxFrameBytes < 4))
    (h : ¬ c → Reaches target file options (next () f)) :
    Reaches target file options (((liftM (throwIf c e) : Update Files.File Unit) >>= next) f) := by
  by_cases hc : c
  · refine .inr ⟨e, f, ?_, hs.bytes, he hc⟩
    simp only [throwIf, if_pos hc, bind_apply, liftM_eq, ofResult_error]
  · simp only [throwIf_of_not hc, bind_apply, liftM_eq, ofResult_ok]
    exact h hc

theorem openScanned_reaches (codec : Codec (StoredEvent E)) (options : FileStoreOptions) {file : Files.File}
    (hne : file.bytes ≠ []) :
    Reaches (scan codec options.maxFrameBytes) file options (openScanned codec options file) := by
  rw [openScanned]
  apply reaches_check (same_refl file) (fun hmax => ⟨MemoryError.noConfusion, fun _ => hmax⟩)
  intro _
  apply reaches_io (same_refl file) (seek_ends 0 file)
  intro _ f hf _
  apply reaches_io hf (tryLock_ends f)
  intro acquired g hg hacquired
  apply reaches_check hg
  · intro hheld
    refine ⟨MemoryError.noConfusion, fun hfile => ?_⟩
    rw [hacquired, (hf.faultless hfile).unlocked] at hheld
    cases hheld
  · intro _
    apply reaches_io hg (length_ends g)
    intro length t ht hlength
    have hpos : ¬ length = 0 := by
      rw [hlength.2, hg.bytes, List.length_eq_zero_iff]
      exact hne
    rw [if_neg hpos]
    exact .inl ⟨t, ht, rfl⟩

theorem sync_interrupted (durability : Durability) (file : Files.File) :
    Ends (fun _ g => Same file g) (Interrupted file) (sync durability file) := by
  cases durability with
  | flush => exact same_refl file
  | syncData => exact io_interrupted (sync_ends file)
  | syncAll => exact io_interrupted (sync_ends file)

structure Restored (codec : Codec (StoredEvent E)) (options : FileStoreOptions) (events : List (StoredEvent E))
    (durableLen : UInt64) (bytes : List UInt8) (store : FileEventStore E) (g : Files.File) : Prop where
  bytes : g.bytes = bytes
  file : store.file = g
  codec : store.codec = codec
  options : store.options = options
  inner : restore events = .ok store.inner
  durableLen : store.durableLen = durableLen

theorem openStore_ends (codec : Codec (StoredEvent E)) (options : FileStoreOptions)
    (events : List (StoredEvent E)) (durableLen : UInt64) (file : Files.File) :
    Ends (Restored codec options events durableLen file.bytes)
      (fun e g => g.bytes = file.bytes ∧ (Faultless file → restore events = .error e))
      (openStore codec options events durableLen file) := by
  rw [openStore]
  apply Ends.bind ((io_interrupted (seekEnd_ends file)).mono (fun _ _ h => h)
    fun _ _ h => ⟨h.1, fun hf => absurd hf h.2.1⟩)
  intro _ g h
  cases hr : restore events with
  | error e => exact ⟨h.1.bytes, fun _ => rfl⟩
  | ok inner => exact ⟨h.1.bytes, rfl, rfl, rfl, hr, rfl⟩

theorem openRecovered_complete (codec : Codec (StoredEvent E)) (options : FileStoreOptions)
    (events : List (StoredEvent E)) (durableLen : UInt64) (file : Files.File) :
    openRecovered codec options events durableLen false file = openStore codec options events durableLen file := by
  have hno : ¬ (false = true ∧ options.recovery = .strict) := fun h => Bool.false_ne_true h.1
  rw [openRecovered, throwIf_of_not hno]
  rfl

theorem openRecovered_partial_ends (codec : Codec (StoredEvent E)) (options : FileStoreOptions)
    (events : List (StoredEvent E)) {durableLen : UInt64} {file : Files.File}
    (hle : durableLen.toNat ≤ file.bytes.length) :
    Ends (Restored codec options events durableLen (file.bytes.take durableLen.toNat))
      (fun e g => Faultless file → options.recovery = .truncatePartialTail →
        g.bytes = file.bytes.take durableLen.toNat ∧ restore events = .error e)
      (openRecovered codec options events durableLen true file) := by
  rw [openRecovered]
  by_cases hstrict : options.recovery = .strict
  · have herror : throwIf (true = true ∧ options.recovery = .strict) (.corruptLog durableLen "partial trailing batch") =
        .error (.corruptLog durableLen "partial trailing batch") := if_pos ⟨rfl, hstrict⟩
    rw [herror]
    intro _ htruncate
    rw [hstrict] at htruncate
    cases htruncate
  · have hno : ¬ (true = true ∧ options.recovery = .strict) := fun h => hstrict h.2
    rw [throwIf_of_not hno]
    change Ends _ _ ((truncateTail options durableLen true >>= fun _ => openStore codec options events durableLen) file)
    have htail : Ends (fun _ g => g.bytes = file.bytes.take durableLen.toNat ∧ (Faultless file → Faultless g))
        (fun _ _ => ¬ Faultless file) (truncateTail options durableLen true file) := by
      rw [truncateTail, if_pos rfl]
      apply Ends.bind ((io_interrupted (setLen_ends hle)).mono (fun _ _ h => h) fun _ _ h => h.2.1)
      intro _ g h
      apply (sync_interrupted options.durability g).mono
      · intro _ t ht
        exact ⟨ht.bytes.trans h.1, fun hf => ht.faultless (h.2 hf)⟩
      · intro _ _ ht hf
        exact ht.2.1 (h.2 hf)
    apply Ends.bind (htail.mono (fun _ _ h => h) fun _ _ h hf => absurd hf h)
    intro _ g h
    have hstore := openStore_ends codec options events durableLen g
    rw [h.1] at hstore
    apply hstore.mono (fun _ _ h => h)
    intro e t ht hf _
    exact ⟨ht.1, ht.2 (h.2 hf)⟩

end WeavatrixMemory.Store.File
