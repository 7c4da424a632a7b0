import WeavatrixMemory.Store.Crashes

namespace WeavatrixMemory.Store.Durable

open Error Identity Domain Outcome Files Blocks Logs Relation
open Store.Frame Framing Scan File InMemory EventLog Commit Faults Crashes

variable {E α : Type} {codec : Codec (StoredEvent E)} {options : FileStoreOptions}

inductive Answer (E : Type)
  | events (committed : List (StoredEvent E))
  | receipt (receipt : AppendReceipt)

def answerOf (committed : List (StoredEvent E)) : Clients.AppendPath → Answer E
  | .borrowed => .events committed
  | .owned => .events committed
  | .receipt => .receipt (AppendReceipt.fromEvents committed)

def memoryAppend (stream : StreamId) (expected : ExpectedVersion) (batch : List (NewEvent E)) :
    Clients.AppendPath → Update (InMemoryStore E) (Answer E)
  | .borrowed => do return .events (← InMemory.append stream expected batch)
  | .owned => do return .events (← InMemory.appendOwned stream expected batch)
  | .receipt => do return .receipt (← InMemory.appendOwnedReceipt stream expected batch)

def fileAppend (stream : StreamId) (expected : ExpectedVersion) (batch : List (NewEvent E)) :
    Clients.AppendPath → Update (FileEventStore E) (Answer E)
  | .borrowed => do return .events (← File.append stream expected batch)
  | .owned => do return .events (← File.appendOwned stream expected batch)
  | .receipt => do return .receipt (← File.appendOwnedReceipt stream expected batch)

theorem memoryAppend_eq (stream : StreamId) (expected : ExpectedVersion) (batch : List (NewEvent E))
    (path : Clients.AppendPath) (store : InMemoryStore E) : memoryAppend stream expected batch path store =
      match prepareAppend store stream expected batch with
      | .ok committed => .ok (answerOf committed path) (commitPrepared committed store)
      | .error e => .error e store := by
  cases path <;> simp only [memoryAppend, InMemory.append, InMemory.appendOwned, InMemory.appendOwnedReceipt,
    bind_apply, get_apply, prepareAppendOwned_eq, commitPreparedOwned_eq]
  all_goals
    cases prepareAppend store stream expected batch with
    | error e => rfl
    | ok committed => rfl

theorem fileAppend_eq (stream : StreamId) (expected : ExpectedVersion) (batch : List (NewEvent E))
    (path : Clients.AppendPath) (store : FileEventStore E) : fileAppend stream expected batch path store =
      match prepareAppend store.inner stream expected batch with
      | .ok committed =>
          match persist committed store with
          | .ok _ t => .ok (answerOf committed path) { t with inner := commitPrepared committed t.inner }
          | .error e t => .error e t
      | .error e => .error e store := by
  cases path <;> simp only [fileAppend, File.append, File.appendOwned, File.appendOwnedReceipt, bind_apply, get_apply,
    prepareAppendOwned_eq, commitPreparedOwned_eq]
  all_goals
    cases prepareAppend store.inner stream expected batch with
    | error e => rfl
    | ok committed =>
        simp only [liftM_eq, ofResult_ok]
        cases persist committed store <;> rfl

/-- Why a batch that the memory would take is not written. -/
inductive Unwritable (store : FileEventStore E) (events : List (StoredEvent E)) : MemoryError → Prop
  | unencoded {e : MemoryError} (hne : events ≠ [])
      (h : encodeBatch events store.codec store.options.maxFrameBytes = .error e) : Unwritable store events e
  | large {frame : Vec UInt8} (hne : events ≠ [])
      (h : encodeBatch events store.codec store.options.maxFrameBytes = .ok frame)
      (hlarge : 2 ^ 63 ≤ store.file.bytes.length + frame.items.length) :
      Unwritable store events (.io "append event batch" "File too large")

theorem io_faultless {good : α → Files.File → Prop} {file : Files.File} {operation : String} {call : FileM α}
    (hf : Faultless file) (h : Ends good (Spoiled file) (call file)) :
    Ends good (fun _ _ => False) (io operation call file) :=
  (io_interrupted h).mono (fun _ _ h => h) fun _ _ h => h.2.1 hf

theorem rollbackTail_faultless {store : FileEventStore E} (hf : Faultless store.file)
    (hle : store.durableLen.toNat ≤ store.file.bytes.length) :
    Ends (fun _ => OnFile store fun g => g.bytes = store.file.bytes.take store.durableLen.toNat ∧ Faultless g)
      (fun _ _ => False) (rollbackTail store) := by
  rw [rollbackTail, bind_apply, get_apply]
  apply Ends.bind ((onFile_ends store (io_faultless hf (setLen_ends hle))).mono (fun _ _ h => h)
    fun _ _ h => h.choose_spec.2)
  rintro _ _ ⟨g, rfl, hg, hfg⟩
  apply Ends.bind ((onFile_ends { store with file := g } (io_faultless (hfg hf) (seek_ends _ g))).mono (fun _ _ h => h)
    fun _ _ h => h.choose_spec.2)
  rintro _ _ ⟨t, rfl, ht, -⟩
  have hft := ht.faultless (hfg hf)
  apply (onFile_ends { store with file := t } (sync_interrupted store.options.durability t)).mono
  · rintro _ _ ⟨u, rfl, hu⟩
    exact ⟨u, rfl, hu.bytes.trans (ht.bytes.trans hg), hu.faultless hft⟩
  · rintro _ _ ⟨u, rfl, hu⟩
    exact hu.2.1 hft

theorem writeAll_durable {store : FileEventStore E} {frame : Vec UInt8}
    (hf : Faultless store.file) (hend : store.file.position = store.file.bytes.length)
    (hdurable : store.file.bytes.length = store.durableLen.toNat) :
    Ends (fun _ => OnFile store fun g => g.bytes = store.file.bytes ++ frame.items ∧ Faultless g)
      (fun e => OnFile store fun g => e = .io "append event batch" "File too large" ∧
        2 ^ 63 ≤ store.file.bytes.length + frame.items.length ∧ g.bytes = store.file.bytes ∧ Faultless g)
      (onError (onFile (io "append event batch" (writeAll frame.items))) rollBack store) := by
  rw [onError, onFile, io]
  have hwrite := writeAll_faultless hf hend frame.items
  cases hw : writeAll frame.items store.file with
  | ok u g => exact ⟨g, rfl, hwrite.of_ok hw⟩
  | error fault g =>
      obtain ⟨rfl, hg, hlarge⟩ := hwrite.of_error hw
      have hle : store.durableLen.toNat ≤ g.bytes.length := by rw [hg.bytes, hdurable]
      have hwhole : g.bytes.take store.durableLen.toNat = store.file.bytes := by
        rw [hg.bytes, ← hdurable, List.take_length]
      change Ends _ _ (rollBack _ { store with file := g })
      rw [rollBack]
      apply Ends.bind ((@rollbackTail_faultless _ { store with file := g } (hg.faultless hf) hle).mono
        (fun _ _ h => h) fun _ _ h => h.elim)
      rintro _ _ ⟨t, rfl, ht, hft⟩
      exact ⟨t, rfl, rfl, hlarge, ht.trans hwhole, hft⟩

theorem sync_durable {store : FileEventStore E} (hf : Faultless store.file) :
    Ends (fun _ => OnFile store (Same store.file)) (fun _ _ => False)
      (onError (onFile (sync store.options.durability)) rollBack store) := by
  have hsync := onFile_ends store (sync_interrupted store.options.durability store.file)
  rw [onError]
  cases hs : onFile (sync store.options.durability) store with
  | ok u t => exact hsync.of_ok hs
  | error e t => exact absurd hf (hsync.of_error hs).choose_spec.2.2.1

theorem writeFrame_faultless {store : FileEventStore E} {events : List (StoredEvent E)} {frame : Vec UInt8}
    {g : Files.File} (hne : events ≠ [])
    (hframe : encodeBatch events store.codec store.options.maxFrameBytes = .ok frame)
    (hend : store.file.bytes.length = store.durableLen.toNat) (hg : g.bytes = store.file.bytes) (hf : Faultless g) :
    Ends (fun _ t => Persisted store events t ∧ Faultless t.file ∧ ∀ e, ¬ Unwritable store events e)
      (fun e => OnFile store fun g => Unwritable store events e ∧ g.bytes = store.file.bytes ∧ Faultless g)
      ((do
        onFile (io "seek append position" (seek store.durableLen.toNat))
        onError (onFile (io "append event batch" (writeAll frame.items))) rollBack
        onError (onFile (sync store.options.durability)) rollBack
        let frameLen ← u64TryFrom frame.items.length
        let durableLen ← checkedAdd store.durableLen frameLen
        modify fun store => { store with durableLen := durableLen } : Update (FileEventStore E) Unit)
        { store with file := g }) := by
  have hseek := @io_faultless _ _ _ "seek append position" _ hf (seek_ends store.durableLen.toNat g)
  apply Ends.bind ((onFile_ends { store with file := g } hseek).mono (fun _ _ h => h)
    fun _ _ h => h.choose_spec.2.elim)
  rintro _ _ ⟨u, rfl, hu, hposition⟩
  have hubytes := hu.bytes.trans hg
  have hdurable : u.bytes.length = store.durableLen.toNat := by rw [hubytes, hend]
  apply Ends.bind ((@writeAll_durable _ { store with file := u } frame (hu.faultless hf)
    (hposition.trans hdurable.symm) hdurable).mono (fun _ _ h => h) ?_)
  · rintro _ _ ⟨v, rfl, hv, hfv⟩
    apply Ends.bind ((@sync_durable _ { store with file := v } hfv).mono (fun _ _ h => h) fun _ _ h => h.elim)
    rintro _ _ ⟨w, rfl, hw⟩
    have hwbytes : w.bytes = store.file.bytes ++ frame.items := by rw [hw.bytes, hv, hubytes]
    obtain ⟨hlength, hsum, hwritten⟩ := written_length hend hwbytes
    simp only [hlength, hsum, bind_apply, liftM_eq, ofResult_ok, modify_apply]
    refine ⟨.written hne hframe hend hwbytes hwritten, hw.faultless hfv, fun e he => ?_⟩
    cases he with
    | unencoded _ h =>
        rw [hframe] at h
        cases h
    | large _ h hlarge =>
        rw [hframe] at h
        cases h
        have hfits := w.fits
        rw [hwbytes, List.length_append] at hfits
        exact hlarge.not_gt hfits
  · rintro e _ ⟨v, rfl, rfl, hlarge, hv, hfv⟩
    rw [hubytes] at hlarge hv
    exact ⟨v, rfl, .large hne hframe hlarge, hv, hfv⟩

theorem persist_faultless {store : FileEventStore E} (hf : Faultless store.file)
    (hend : store.file.bytes.length = store.durableLen.toNat) (events : List (StoredEvent E)) :
    Ends (fun _ t => Persisted store events t ∧ Faultless t.file ∧ ∀ e, ¬ Unwritable store events e)
      (fun e => OnFile store fun g => Unwritable store events e ∧ g.bytes = store.file.bytes ∧ Faultless g)
      (persist events store) := by
  rw [persist]
  by_cases hempty : events = []
  · subst hempty
    refine ⟨.empty rfl, hf, fun e he => ?_⟩
    cases he with
    | unencoded hne => exact hne rfl
    | large hne => exact hne rfl
  · have hevents : ¬ events.isEmpty = true := fun h => hempty (List.isEmpty_iff.mp h)
    rw [if_neg hevents, bind_apply, get_apply]
    have hlength := @io_faultless _ _ _ "read event log metadata" _ hf (length_ends store.file)
    apply Ends.bind ((onFile_ends store hlength).mono (fun _ _ h => h) fun _ _ h => h.choose_spec.2.elim)
    rintro actualLen _ ⟨g, rfl, hg, -, rfl⟩
    rw [throwIf_of_not (not_not.mpr hend)]
    cases hframe : encodeBatch events store.codec store.options.maxFrameBytes with
    | error e => exact ⟨g, rfl, .unencoded hempty hframe, hg.bytes, hg.faultless hf⟩
    | ok frame => exact writeFrame_faultless hempty hframe hend hg.bytes (hg.faultless hf)

theorem openStore_faultless {events : List (StoredEvent E)} {durableLen : UInt64} {file : Files.File}
    (hf : Faultless file) (hl : Lawful Continues events) :
    ∃ store g, openStore codec options events durableLen file = .ok store g ∧
      Restored codec options events durableLen file.bytes store g ∧ Faultless store.file := by
  have hrestore : restore events = .ok (ofLog events) := restore_eq_ok.mpr ⟨hl, rfl⟩
  rw [openStore, bind_apply]
  have hio := @io_faultless _ _ _ "seek event log end" _ hf (seekEnd_ends file)
  cases hs : io "seek event log end" seekEnd file with
  | error e g => exact (hio.of_error hs).elim
  | ok u g =>
      have hg := (hio.of_ok hs).1
      refine ⟨⟨g, codec, options, ofLog events, durableLen⟩, g, ?_, ⟨hg.bytes, rfl, rfl, rfl, hrestore, rfl⟩,
        hg.faultless hf⟩
      simp only [bind_apply, hrestore, liftM_eq, ofResult_ok, get_apply]
      rfl

theorem openLog_whole {batches : List (List (StoredEvent E))} {frames : List (List UInt8)} {file : Files.File}
    (hmax : 4 ≤ options.maxFrameBytes) (hl : Lawful Continues batches.flatten)
    (hframes : List.Forall₂ (Frames codec options.maxFrameBytes) frames batches)
    (hbytes : file.bytes = fileHeader ++ frames.flatten) (hf : Faultless file) :
    ∃ store g, openLog codec options file = .ok store g ∧ Journaled codec options store batches frames [] ∧
      Faultless store.file := by
  have hframing := readFrame_framing codec options.maxFrameBytes
  have hne : file.bytes ≠ [] := by
    rw [hbytes]
    exact List.append_ne_nil_of_left_ne_nil (by decide) _
  have hscan := scan_blocks hframing hframes
    (@Scan.complete _ _ _ _ (fileHeader.length + frames.flatten.length) [] (hframing.complete.mpr rfl))
  rw [List.append_nil] at hscan
  obtain ⟨f, hsame, hopen⟩ | ⟨e, f, -, -, -, hrefused⟩ := openScanned_reaches codec options hne
  · have hends := scan_of_faultless (hsame.faultless hf) (hsame.bytes.trans hbytes) hscan
    cases hr : scan codec options.maxFrameBytes f with
    | error e g => cases (hends.of_error hr).2
    | ok outcome g =>
        obtain ⟨hg, s, hs, rfl⟩ := hends.of_ok hr
        cases hs
        have hgf := hg.faultless (hsame.faultless hf)
        have hgbytes := hg.bytes.trans (hsame.bytes.trans hbytes)
        have hfits := g.fits
        rw [hgbytes, List.length_append] at hfits
        have hsmall : fileHeader.length + frames.flatten.length < 2 ^ 63 := hfits
        have hdurable : (UInt64.ofNat (fileHeader.length + frames.flatten.length)).toNat =
            (fileHeader ++ frames.flatten).length := by
          rw [List.length_append, UInt64.toNat_ofNat_of_lt' (hsmall.trans (by decide))]
        have hlog : Lawful Continues (batches ++ []).flatten := by rwa [List.append_nil]
        obtain ⟨store, h, hstore, hrestored, hfs⟩ := @openStore_faultless _ codec options _
          (UInt64.ofNat (fileHeader.length + frames.flatten.length)) _ hgf hlog
        rw [List.append_nil] at hrestored
        refine ⟨store, h, ?_, Crashes.Restored.journaled hrestored hframes hgbytes hdurable, hfs⟩
        rw [openLog, bind_apply, hopen, hr]
        change openRecovered codec options (batches ++ []).flatten _ false g = _
        rw [openRecovered_complete]
        exact hstore
  · exact absurd (hrefused hf) hmax.not_gt

/-- A file store, and a memory that gets the batches the file store takes. -/
structure Mirror (E : Type) where
  store : FileEventStore E
  memory : InMemoryStore E

def Mirror.next (s : Mirror E) (kept : EStateM.Result MemoryError (InMemoryStore E) (Answer E)) :
    EStateM.Result MemoryError (FileEventStore E) (Answer E) → Mirror E
  | .ok _ t => ⟨t, after kept⟩
  | .error _ t => ⟨t, s.memory⟩

/-- An append, or the log is opened again, where the frames are still within the limit. -/
inductive Step (codec : Codec (StoredEvent E)) : Mirror E → Mirror E → Prop
  | append {s : Mirror E} (path : Clients.AppendPath) (stream : StreamId) (expected : ExpectedVersion)
      (batch : List (NewEvent E)) :
      Step codec s (s.next (memoryAppend stream expected batch path s.memory)
        (fileAppend stream expected batch path s.store))
  | reopen {s : Mirror E} {options : FileStoreOptions} {file g : Files.File} {reopened : FileEventStore E}
      (hlimit : s.store.options.maxFrameBytes ≤ options.maxFrameBytes) (hbytes : file.bytes = s.store.file.bytes)
      (hf : Faultless file) (h : openLog codec options file = .ok reopened g) : Step codec s ⟨reopened, s.memory⟩

inductive Agrees (s : Mirror E) : EStateM.Result MemoryError (FileEventStore E) (Answer E) →
    EStateM.Result MemoryError (InMemoryStore E) (Answer E) → Prop
  | refused {e : MemoryError} : Agrees s (.error e s.store) (.error e s.memory)
  | taken {answer : Answer E} {t : FileEventStore E} {committed : List (StoredEvent E)}
      (hevents : t.inner.events = s.memory.events ++ committed) (h : ∀ e, ¬ Unwritable s.store committed e) :
      Agrees s (.ok answer t) (.ok answer t.inner)
  | unwritten {answer : Answer E} {e : MemoryError} {g : Files.File} {m : InMemoryStore E}
      {committed : List (StoredEvent E)} (hevents : m.events = s.memory.events ++ committed)
      (h : Unwritable s.store committed e) (hbytes : g.bytes = s.store.file.bytes) :
      Agrees s (.error e { s.store with file := g }) (.ok answer m)

structure Mirrors (codec : Codec (StoredEvent E)) (s : Mirror E) (batches : List (List (StoredEvent E)))
    (frames : List (List UInt8)) : Prop where
  journaled : Journaled codec s.store.options s.store batches frames []
  faultless : Faultless s.store.file
  memory : s.memory = s.store.inner
  limit : 4 ≤ s.store.options.maxFrameBytes

variable {s t : Mirror E} {batches : List (List (StoredEvent E))} {frames : List (List UInt8)}

theorem Mirrors.written (h : Mirrors codec s batches frames) :
    s.store.file.bytes = fileHeader ++ frames.flatten ∧ s.store.file.bytes.length = s.store.durableLen.toNat := by
  have hbytes := h.journaled.bytes
  rw [List.append_nil] at hbytes
  exact ⟨hbytes, by rw [hbytes, h.journaled.durable]⟩

theorem Mirrors.append (hcodec : codec.Inverts) (h : Mirrors codec s batches frames) (path : Clients.AppendPath)
    (stream : StreamId) (expected : ExpectedVersion) (batch : List (NewEvent E)) :
    Agrees s (fileAppend stream expected batch path s.store) (memoryAppend stream expected batch path s.memory) ∧
      ∃ batches frames, Mirrors codec (s.next (memoryAppend stream expected batch path s.memory)
        (fileAppend stream expected batch path s.store)) batches frames := by
  have hj := h.journaled
  obtain ⟨store, memory⟩ := s
  obtain rfl : memory = store.inner := h.memory
  dsimp only at hj ⊢
  rw [fileAppend_eq, memoryAppend_eq]
  cases hc : prepareAppend store.inner stream expected batch with
  | error e => exact ⟨.refused, batches, frames, h⟩
  | ok committed =>
      have hcommitted := hc
      rw [hj.inner] at hcommitted
      have hcommittable := (prepareAppend_committable hj.log hcommitted).1
      have hmemory : commitPrepared committed store.inner = ofLog (batches.flatten ++ committed) := by
        rw [hj.inner, commitPrepared_ofLog hcommittable.stream]
      have hevents : (commitPrepared committed store.inner).events = store.inner.events ++ committed := by
        rw [hmemory, hj.inner]
        rfl
      have hends := persist_faultless h.faultless h.written.2 committed
      dsimp only
      cases hp : persist committed store with
      | error e u =>
          obtain ⟨g, rfl, hunwritable, hbytes, hfg⟩ := hends.of_error hp
          have hkept : Mirrors codec ⟨{ store with file := g }, store.inner⟩ batches frames :=
            ⟨⟨hj.sameCodec, rfl, hj.log, hj.inner, hj.framed, hbytes.trans hj.bytes, hj.durable⟩, hfg, rfl, h.limit⟩
          exact ⟨.unwritten hevents hunwritable hbytes, batches, frames, hkept⟩
      | ok v u =>
          obtain ⟨hpersisted, hfu, hwritable⟩ := hends.of_ok hp
          have hinner : u.inner = store.inner := by cases hpersisted <;> rfl
          simp only [hinner]
          refine ⟨.taken hevents hwritable, ?_⟩
          change ∃ batches frames, Mirrors codec ⟨{ u with inner := commitPrepared committed store.inner },
            commitPrepared committed store.inner⟩ batches frames
          cases hpersisted with
          | empty hempty =>
              subst hempty
              rw [List.append_nil, ← hj.inner] at hmemory
              rw [hmemory]
              exact ⟨batches, frames, h⟩
          | @written frame file durableLen hne hframe hend hbytes hdurable =>
              have hframes := frames_of_encodeBatch hcodec (hj.sameCodec ▸ hframe)
              rw [hmemory]
              exact ⟨_, _, hj.extend hframes hcommittable.grows hbytes hdurable, hfu, rfl, h.limit⟩

theorem Mirrors.reopen (h : Mirrors codec s batches frames)
    (hlimit : s.store.options.maxFrameBytes ≤ options.maxFrameBytes) {file : Files.File}
    (hbytes : file.bytes = s.store.file.bytes) (hf : Faultless file) :
    ∃ reopened g, openLog codec options file = .ok reopened g ∧ Mirrors codec ⟨reopened, s.memory⟩ batches frames := by
  have hj := h.journaled
  have hframes : List.Forall₂ (Frames codec options.maxFrameBytes) frames batches :=
    hj.framed.imp fun frame events hframe => by
      obtain ⟨payload, hframe, hwithin, hsmall, hdecodes⟩ := hframe
      exact ⟨payload, hframe, hwithin.trans hlimit, hsmall, hdecodes⟩
  obtain ⟨reopened, g, hopen, hreopened, hfr⟩ :=
    openLog_whole (h.limit.trans hlimit) hj.log hframes (hbytes.trans h.written.1) hf
  have hoptions := hreopened.sameOptions
  refine ⟨reopened, g, hopen, ⟨⟨hreopened.sameCodec, rfl, hreopened.log, hreopened.inner, ?_, hreopened.bytes,
    hreopened.durable⟩, hfr, ?_, ?_⟩⟩
  · rw [hoptions]
    exact hreopened.framed
  · rw [h.memory, hj.inner, hreopened.inner]
  · rw [hoptions]
    exact h.limit.trans hlimit

theorem Mirrors.step (hcodec : codec.Inverts) (h : Mirrors codec s batches frames) (hs : Step codec s t) :
    ∃ batches frames, Mirrors codec t batches frames := by
  cases hs with
  | append path stream expected batch => exact (h.append hcodec path stream expected batch).2
  | reopen hlimit hbytes hf hopen =>
      obtain ⟨reopened, g, heq, hreopened⟩ := h.reopen hlimit hbytes hf
      rw [hopen] at heq
      cases heq
      exact ⟨batches, frames, hreopened⟩

theorem Mirrors.run (hcodec : codec.Inverts) (h : Mirrors codec s batches frames) (hs : ReflTransGen (Step codec) s t) :
    ∃ batches frames, Mirrors codec t batches frames := by
  induction hs with
  | refl => exact ⟨batches, frames, h⟩
  | tail _ hstep ih =>
      obtain ⟨batches, frames, h⟩ := ih
      exact h.step hcodec hstep

/-- Where no operation on the file fails, the file store is the memory with another way to refuse, and
is the same after it has been opened again. -/
theorem file_refines_memory (hcodec : codec.Inverts) {file g : Files.File} {store : FileEventStore E}
    (h : openLog codec options file = .ok store g) (hf : Faultless store.file) (s : Mirror E)
    (hrun : ReflTransGen (Step codec) ⟨store, store.inner⟩ s) :
    s.store.inner = s.memory ∧
    (∀ path stream expected batch, Agrees s (fileAppend stream expected batch path s.store)
      (memoryAppend stream expected batch path s.memory)) ∧
    ∀ options file, s.store.options.maxFrameBytes ≤ options.maxFrameBytes → file.bytes = s.store.file.bytes →
      Faultless file → ∃ reopened g, openLog codec options file = .ok reopened g ∧ reopened.inner = s.memory := by
  obtain ⟨hmax, batches, frames, hj⟩ := openLog_journaled h
  have hoptions := hj.sameOptions
  subst hoptions
  have hstart : Mirrors codec ⟨store, store.inner⟩ batches frames := ⟨hj, hf, rfl, hmax⟩
  obtain ⟨batches, frames, hs⟩ := hstart.run hcodec hrun
  refine ⟨hs.memory.symm, fun path stream expected batch => (hs.append hcodec path stream expected batch).1,
    fun options file hlimit hbytes hf => ?_⟩
  obtain ⟨reopened, g, hopen, hreopened⟩ := hs.reopen hlimit hbytes hf
  exact ⟨reopened, g, hopen, hreopened.memory.symm⟩

def headerFile : Files.File where
  bytes := fileHeader
  fits := by decide
  position := 0
  locked := false
  fates _ := ⟨1, .done⟩

def Mirror.append (path : Clients.AppendPath) (batch : List (NewEvent E)) (s : Mirror E) : Mirror E :=
  s.next (memoryAppend Common.stream .any batch path s.memory) (fileAppend Common.stream .any batch path s.store)

def twice (store : FileEventStore MemoryEvent) : Mirror MemoryEvent :=
  (Mirror.append .receipt [Common.event (Common.eventId 9) (Common.ts 9) (.nodeUpserted (Common.node Common.file))]
    (Mirror.append .borrowed ((Common.retractedOnce.take 3).map proposal) ⟨store, store.inner⟩))

/-- The second batch has an event without an encoding. The memory would take it, and it is not in the
log that is opened again. -/
theorem file_refines_memory_unwritten : ∃ store g, openLog retractedCodec smallOptions headerFile = .ok store g ∧
    (twice store).memory.events = Common.retractedOnce.take 3 ∧
    ∀ file, file.bytes = (twice store).store.file.bytes → Faultless file → ∃ reopened g,
      openLog retractedCodec ⟨.truncatePartialTail, .flush, 65⟩ file = .ok reopened g ∧
        reopened.inner = (twice store).memory := by
  have hbatches : Lawful Continues ([] : List (List (StoredEvent MemoryEvent))).flatten := lawful_nil
  obtain ⟨store, g, ho, -, hf⟩ := @openLog_whole _ retractedCodec smallOptions [] [] headerFile (by decide) hbatches
    .nil rfl ⟨rfl, fun _ => rfl⟩
  have hrun : (match openLog retractedCodec smallOptions headerFile with
    | .ok store _ => decide ((twice store).memory.events = Common.retractedOnce.take 3 ∧
        (twice store).store.options.maxFrameBytes = 64)
    | .error _ _ => false) = true := by decide +kernel
  rw [ho] at hrun
  obtain ⟨hmemory, hlimit⟩ := of_decide_eq_true hrun
  have hsteps : ReflTransGen (Step retractedCodec) ⟨store, store.inner⟩ (twice store) :=
    (ReflTransGen.single (Step.append .borrowed Common.stream .any _)).tail (Step.append .receipt Common.stream .any _)
  obtain ⟨-, -, hreopens⟩ := file_refines_memory (tableCodec_inverts Common.retractedOnce) ho hf _ hsteps
  refine ⟨store, g, ho, hmemory, fun file hbytes hfile => hreopens _ file ?_ hbytes hfile⟩
  rw [hlimit]
  decide

end WeavatrixMemory.Store.Durable
