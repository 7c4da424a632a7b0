import WeavatrixMemory.Store.File

namespace WeavatrixMemory.Store.Recovery

open Error Identity Domain Words Outcome Files Blocks Store.Frame Framing Scan File

variable {E : Type} {codec : Codec (StoredEvent E)} {maxFrameBytes limit : Nat}

def relabelled (frame : Vec UInt8) (length : UInt64) : List UInt8 :=
  frame.items.take 4 ++ leBytes 8 length.toNat ++ frame.items.drop 12

def framesBytes (frames : List (Vec UInt8)) : List UInt8 := (frames.map (·.items)).flatten

def damagedLog (earlier : List (Vec UInt8)) (frame : Vec UInt8) (length : UInt64) (later : List (Vec UInt8)) :
    List UInt8 :=
  fileHeader ++ (framesBytes earlier ++ (relabelled frame length ++ framesBytes later))

/-- The call has returned, the file is as it was, and a store that it has returned has the whole
log. -/
def Kept (log : List (StoredEvent E)) (file : Files.File) :
    EStateM.Result MemoryError Files.File (FileEventStore E) → Prop
  | .ok store g => store.inner.events = log ∧ g.bytes = file.bytes
  | .error e g => e ≠ .panicked ∧ g.bytes = file.bytes

/-- The scan gets to the damaged frame, and its new length is within the limit but not within the
file. -/
structure Truncates (codec : Codec (StoredEvent E)) (maxFrameBytes : Nat) (earlier : List (Vec UInt8))
    (frame : Vec UInt8) (length : UInt64) (later : List (Vec UInt8)) : Prop where
  accepted : ∀ other ∈ earlier, ∃ events, Frames codec maxFrameBytes other.items events
  within : length.toNat ≤ maxFrameBytes
  beyond : (frame.items ++ framesBytes later).length < batchHeaderLen + length.toNat

theorem relabelled_eq {frame : Vec UInt8} {payload : List UInt8} (h : frame.items = frameOf payload)
    (length : UInt64) : relabelled frame length = batchHeader length.toNat (crc32c payload) ++ payload := by
  have hframe :
      frame.items = batchMagic ++ (leBytes 8 payload.length ++ (leBytes 4 (crc32c payload).toNat ++ payload)) := by
    rw [h, frameOf, batchHeader]
    simp only [List.append_assoc]
  have htake : frame.items.take 4 = batchMagic := by
    rw [hframe]
    rfl
  have hdrop : frame.items.drop 12 = leBytes 4 (crc32c payload).toNat ++ payload := by
    have hlen : (batchMagic ++ leBytes 8 payload.length).length = 12 := by
      rw [List.length_append, length_leBytes]
      rfl
    rw [hframe, ← List.append_assoc, ← hlen, List.drop_left]
  rw [relabelled, htake, hdrop, batchHeader]
  simp only [List.append_assoc]

theorem lengthField_frameOf {frame : Vec UInt8} {payload : List UInt8} (h : frame.items = frameOf payload) :
    lengthField frame.items = payload.length := by
  have hfits := frame.fits
  rw [h, frameOf, List.length_append] at hfits
  have hmiddle := take_drop_middle batchMagic (leBytes 8 payload.length)
    (leBytes 4 (crc32c payload).toNat ++ payload)
  rw [length_leBytes] at hmiddle
  have hframe :
      frame.items = batchMagic ++ leBytes 8 payload.length ++ (leBytes 4 (crc32c payload).toNat ++ payload) := by
    rw [h, frameOf, batchHeader]
    simp only [List.append_assoc]
  rw [lengthField, hframe]
  change leValue (((_ : List UInt8).drop batchMagic.length).take 8) = _
  rw [hmiddle, leValue_leBytes (by omega)]

theorem readFrame_written {batch : List (StoredEvent E)} {frame : Vec UInt8}
    (h : encodeBatch batch codec limit = .ok frame) :
    (∃ events, Frames codec maxFrameBytes frame.items events) ∨ ∀ offset rest, ∃ e, e ≠ .panicked ∧
      readFrame codec maxFrameBytes offset (frame.items ++ rest) = .error e := by
  obtain ⟨encoded, -, -, -, hframe⟩ := encodeBatch_eq_ok h
  have hfits := frame.fits
  rw [hframe, frameOf, List.length_append] at hfits
  by_cases hlimit : maxFrameBytes < (payloadOf encoded).length
  · right
    intro offset rest
    refine ⟨corrupt (UInt64.ofNat offset) "batch exceeds configured frame limit", (returned_corrupt _ _).1, ?_⟩
    rw [hframe, frameOf, List.append_assoc, readFrame_batchHeader (by omega), readBatch, throwIf, if_pos hlimit]
    rfl
  · cases hd : decodePayload (payloadOf encoded) codec 0 with
    | ok events =>
        exact .inl ⟨events, payloadOf encoded, hframe, not_lt.mp hlimit, by omega,
          fun offset => decodePayload_offset _ _ hd⟩
    | error e =>
        right
        intro offset rest
        have hlong : ¬ (payloadOf encoded ++ rest).length < (payloadOf encoded).length := by
          rw [List.length_append]
          omega
        have hsmall : ¬ 2 ^ 63 ≤ (payloadOf encoded).length := by omega
        have hbad : ∃ e, decodePayload (payloadOf encoded) codec (UInt64.ofNat offset) = .error e := by
          cases ho : decodePayload (payloadOf encoded) codec (UInt64.ofNat offset) with
          | ok events =>
              rw [decodePayload_offset _ 0 ho] at hd
              cases hd
          | error e => exact ⟨e, rfl⟩
        obtain ⟨e, he⟩ := hbad
        refine ⟨e, (decodePayload_returned he).1, ?_⟩
        rw [hframe, frameOf, List.append_assoc, readFrame_batchHeader (by omega), readBatch,
          throwIf_of_not hlimit, throwIf_of_not hsmall]
        simp only [ok_bind, if_neg hlong, List.take_left, throwIf_of_not (not_not.mpr rfl), he, error_bind]

/-- With another length that stays within the file, a frame is refused: its payload does not decode,
even if the checksum of the other bytes should be the same. -/
theorem readFrame_relabelled {batch : List (StoredEvent E)} {frame : Vec UInt8}
    (h : encodeBatch batch codec limit = .ok frame) {length : UInt64}
    (hother : length.toNat ≠ lengthField frame.items) {rest : List UInt8}
    (hfits : (frame.items ++ rest).length < 2 ^ 63)
    (hwithin : length.toNat ≤ maxFrameBytes → batchHeaderLen + length.toNat ≤ (frame.items ++ rest).length)
    (offset : Nat) : ∃ e, e ≠ .panicked ∧
      readFrame codec maxFrameBytes offset (relabelled frame length ++ rest) = .error e := by
  obtain ⟨encoded, -, hcount, -, hframe⟩ := encodeBatch_eq_ok h
  rw [lengthField_frameOf hframe] at hother
  rw [hframe, frameOf, List.append_assoc, List.length_append, length_batchHeader] at hfits hwithin
  rw [relabelled_eq hframe, List.append_assoc, readFrame_batchHeader length.toNat_lt, readBatch]
  by_cases hlimit : maxFrameBytes < length.toNat
  · refine ⟨corrupt (UInt64.ofNat offset) "batch exceeds configured frame limit", (returned_corrupt _ _).1, ?_⟩
    rw [throwIf, if_pos hlimit]
    rfl
  · have hlong := hwithin (not_lt.mp hlimit)
    have hsmall : ¬ 2 ^ 63 ≤ length.toNat := by omega
    have hread : ¬ (payloadOf encoded ++ rest).length < length.toNat := by omega
    rw [throwIf_of_not hlimit, throwIf_of_not hsmall]
    simp only [ok_bind, if_neg hread]
    by_cases hcrc : crc32c ((payloadOf encoded ++ rest).take length.toNat) ≠ crc32c (payloadOf encoded)
    · refine ⟨corrupt (UInt64.ofNat offset) "batch checksum mismatch", (returned_corrupt _ _).1, ?_⟩
      rw [throwIf, if_pos hcrc]
      rfl
    · rw [throwIf_of_not hcrc, ok_bind]
      cases hd : decodePayload ((payloadOf encoded ++ rest).take length.toNat) codec (UInt64.ofNat offset) with
      | error e => exact ⟨e, (decodePayload_returned hd).1, rfl⟩
      | ok events =>
          have hlength := decodePayload_length hcount (List.take_prefix _ _) hd
          rw [List.length_take] at hlength
          omega

/-- With a length beyond the file, it looks like the torn end of a log. -/
theorem readFrame_beyond {batch : List (StoredEvent E)} {frame : Vec UInt8}
    (h : encodeBatch batch codec limit = .ok frame) {length : UInt64} {rest : List UInt8}
    (hlimit : length.toNat ≤ maxFrameBytes)
    (hbeyond : (frame.items ++ rest).length < batchHeaderLen + length.toNat) (offset : Nat) :
    readFrame codec maxFrameBytes offset (relabelled frame length ++ rest) = .error .panicked ∨
      readFrame codec maxFrameBytes offset (relabelled frame length ++ rest) = .ok .torn := by
  obtain ⟨encoded, -, -, -, hframe⟩ := encodeBatch_eq_ok h
  rw [hframe, frameOf, List.append_assoc, List.length_append, length_batchHeader] at hbeyond
  rw [relabelled_eq hframe, List.append_assoc, readFrame_batchHeader length.toNat_lt, readBatch,
    throwIf_of_not hlimit.not_gt]
  by_cases hlarge : 2 ^ 63 ≤ length.toNat
  · left
    rw [throwIf, if_pos hlarge]
    rfl
  · right
    have hshort : (payloadOf encoded ++ rest).length < length.toNat := by omega
    rw [throwIf_of_not hlarge]
    simp only [ok_bind, if_pos hshort]

variable {earlier later : List (Vec UInt8)} {before after : List (List (StoredEvent E))}
  {batch : List (StoredEvent E)} {frame : Vec UInt8} {length : UInt64}

theorem accepted_or_refused (h : Written codec limit before earlier) :
    ∀ bytes ∈ earlier.map (·.items), (∃ events, Frames codec maxFrameBytes bytes events) ∨
      ∀ offset rest, ∃ e, e ≠ .panicked ∧ readFrame codec maxFrameBytes offset (bytes ++ rest) = .error e := by
  induction h with
  | nil => exact fun bytes h => absurd h List.not_mem_nil
  | cons hframe _ ih =>
      rw [List.map_cons, List.forall_mem_cons]
      exact ⟨readFrame_written hframe, ih⟩

theorem scan_damaged_error (hbefore : Written codec limit before earlier)
    (hframe : encodeBatch batch codec limit = .ok frame) (hother : length.toNat ≠ lengthField frame.items)
    (hfits : (frame.items ++ framesBytes later).length < 2 ^ 63)
    (hno : ¬ Truncates codec maxFrameBytes earlier frame length later) :
    ∃ e, e ≠ .panicked ∧ Blocks.Scan (readFrame codec maxFrameBytes) fileHeader.length
      (framesBytes earlier ++ (relabelled frame length ++ framesBytes later)) (.error e) := by
  have hframing := readFrame_framing codec maxFrameBytes
  by_cases haccepted : ∀ bytes ∈ earlier.map (·.items), ∃ events, Frames codec maxFrameBytes bytes events
  · obtain ⟨blocks, hblocks⟩ := exists_blocks haccepted
    have hwithin : length.toNat ≤ maxFrameBytes →
        batchHeaderLen + length.toNat ≤ (frame.items ++ framesBytes later).length := by
      intro hlimit
      by_contra hbeyond
      refine hno ⟨fun other ho => haccepted _ (List.mem_map_of_mem ho), hlimit, not_le.mp hbeyond⟩
    obtain ⟨e, he, hread⟩ := readFrame_relabelled hframe hother hfits hwithin
      (fileHeader.length + (earlier.map (·.items)).flatten.length)
    exact ⟨e, he, scan_blocks hframing hblocks (.failed hread)⟩
  · exact scan_refused hframing (accepted_or_refused hbefore) haccepted _ _

theorem scan_damaged_torn (hframe : encodeBatch batch codec limit = .ok frame)
    (h : Truncates codec maxFrameBytes earlier frame length later) :
    ∃ r, Blocks.Scan (readFrame codec maxFrameBytes) fileHeader.length
      (framesBytes earlier ++ (relabelled frame length ++ framesBytes later)) r ∧
      (r = .error .panicked ∨ ∃ blocks, r = .ok ⟨blocks, fileHeader.length + (framesBytes earlier).length, false⟩) := by
  have hframing := readFrame_framing codec maxFrameBytes
  obtain ⟨blocks, hblocks⟩ : ∃ blocks, List.Forall₂ (Frames codec maxFrameBytes) (earlier.map (·.items)) blocks := by
    apply exists_blocks
    intro bytes hbytes
    obtain ⟨other, ho, rfl⟩ := List.mem_map.mp hbytes
    exact h.accepted other ho
  obtain hread | hread := readFrame_beyond hframe h.within h.beyond
    (fileHeader.length + (earlier.map (·.items)).flatten.length)
  · exact ⟨_, scan_blocks hframing hblocks (.failed hread), .inl rfl⟩
  · refine ⟨_, scan_blocks hframing hblocks (.torn hread), .inr ⟨blocks, ?_⟩⟩
    change Except.ok (Scanned.behind _ blocks) = _
    rw [Scanned.behind, List.append_nil]
    rfl

theorem length_relabelled (hframe : encodeBatch batch codec limit = .ok frame) :
    (relabelled frame length).length = frame.items.length := by
  obtain ⟨encoded, -, -, -, hitems⟩ := encodeBatch_eq_ok hframe
  rw [relabelled_eq hitems, hitems, frameOf, List.length_append, List.length_append, length_batchHeader,
    length_batchHeader]

theorem length_frame (hframe : encodeBatch batch codec limit = .ok frame) :
    batchHeaderLen + 4 ≤ frame.items.length := by
  obtain ⟨encoded, -, -, -, hitems⟩ := encodeBatch_eq_ok hframe
  rw [hitems, frameOf, List.length_append, length_batchHeader, payloadOf, List.length_append, length_leBytes]
  omega

theorem openLog_error {options : FileStoreOptions} {file g : Files.File} {e : MemoryError}
    (h : openScanned codec options file = .error e g) : openLog codec options file = .error e g := by
  rw [openLog, bind_apply, h]

variable {options : FileStoreOptions} {file : Files.File}

theorem openLog_kept (hbefore : Written codec limit before earlier)
    (hframe : encodeBatch batch codec limit = .ok frame) (hother : length.toNat ≠ lengthField frame.items)
    (hbytes : file.bytes = damagedLog earlier frame length later)
    (hno : ¬ Truncates codec options.maxFrameBytes earlier frame length later) (log : List (StoredEvent E)) :
    Kept log file (openLog codec options file) := by
  have hfile := file.fits
  have hfits : (frame.items ++ framesBytes later).length < 2 ^ 63 := by
    rw [hbytes, damagedLog] at hfile
    simp only [List.length_append, length_relabelled hframe] at hfile ⊢
    omega
  obtain ⟨e, he, hscan⟩ := scan_damaged_error hbefore hframe hother hfits hno
  have hne : file.bytes ≠ [] := by
    rw [hbytes, damagedLog]
    exact List.append_ne_nil_of_left_ne_nil (by decide) _
  obtain ⟨g, hg, heq⟩ | ⟨e, g, heq, hsame, he, -⟩ := openScanned_reaches codec options hne
  · have hends := scan_ends codec options.maxFrameBytes g
    cases hr : scan codec options.maxFrameBytes g with
    | ok outcome t =>
        obtain ⟨-, rest, s, hrest, -, hok⟩ := hends.of_ok hr
        rw [hg.bytes, hbytes, damagedLog] at hrest
        rw [← List.append_cancel_left hrest] at hok
        cases hok.unique hscan
    | error e' t =>
        rw [openLog_error (heq.trans hr)]
        obtain ⟨ht, hfailed⟩ | ⟨ht, -, he'⟩ := hends.of_error hr
        · have hsame := hfailed _ (hg.bytes.trans hbytes)
          cases hsame.unique hscan
          exact ⟨he, ht.trans hg.bytes⟩
        · exact ⟨he', ht.trans hg.bytes⟩
  · rw [openLog_error heq]
    exact ⟨he, hsame⟩

theorem openLog_truncated (hframe : encodeBatch batch codec limit = .ok frame)
    (hrecovery : options.recovery = .truncatePartialTail)
    (hbytes : file.bytes = damagedLog earlier frame length later) (hf : Faultless file)
    (h : Truncates codec options.maxFrameBytes earlier frame length later) (log : List (StoredEvent E)) :
    ¬ Kept log file (openLog codec options file) := by
  have hfile := file.fits
  have hlength := length_frame hframe
  have hlog : file.bytes.length = fileHeader.length + (framesBytes earlier).length +
      (frame.items.length + (framesBytes later).length) := by
    rw [hbytes, damagedLog]
    simp only [List.length_append, length_relabelled hframe]
    omega
  have hne : file.bytes ≠ [] := by
    rw [hbytes, damagedLog]
    exact List.append_ne_nil_of_left_ne_nil (by decide) _
  obtain ⟨r, hscan, hr⟩ := scan_damaged_torn hframe h
  obtain ⟨g, hg, heq⟩ | ⟨e, g, -, -, -, hmax⟩ := openScanned_reaches codec options hne
  · have hends := scan_of_faultless (hg.faultless hf) (hg.bytes.trans hbytes) hscan
    rw [openLog, bind_apply, heq]
    cases hs : scan codec options.maxFrameBytes g with
    | error e t =>
        obtain ⟨-, hpanic⟩ := hends.of_error hs
        obtain hr | ⟨blocks, hr⟩ := hr
        · rw [hr] at hpanic
          exact fun hkept => hkept.1 (Except.error.inj hpanic).symm
        · rw [hr] at hpanic
          cases hpanic
    | ok outcome t =>
        obtain ⟨ht, s, hok, rfl⟩ := hends.of_ok hs
        obtain hr | ⟨blocks, hr⟩ := hr
        · rw [hr] at hok
          cases hok
        · obtain rfl := Except.ok.inj (hr.symm.trans hok)
          have hsame := hg.trans ht
          have hend : (UInt64.ofNat (fileHeader.length + (framesBytes earlier).length)).toNat =
              fileHeader.length + (framesBytes earlier).length := UInt64.toNat_ofNat_of_lt' (by
            change _ < 2 ^ 64
            omega)
          have hshorter : ∀ bytes : List UInt8,
              bytes = t.bytes.take (fileHeader.length + (framesBytes earlier).length) → bytes ≠ file.bytes := by
            intro bytes hb heq
            have hlen := congrArg List.length (hb.symm.trans heq)
            rw [List.length_take, hsame.bytes] at hlen
            omega
          have hle : (UInt64.ofNat (fileHeader.length + (framesBytes earlier).length)).toNat ≤ t.bytes.length := by
            rw [hend, hsame.bytes]
            omega
          have hopen := openRecovered_partial_ends codec options (List.flatten blocks) hle
          rw [hend] at hopen
          change ¬ Kept log file (openRecovered codec options (List.flatten blocks) _ true t)
          cases ho : openRecovered codec options (List.flatten blocks) _ true t with
          | ok store u => exact fun hkept => hshorter _ (hopen.of_ok ho).bytes hkept.2
          | error e u =>
              exact fun hkept => hshorter _ (hopen.of_error ho (hsame.faultless hf) hrecovery).1 hkept.2
  · have hlimit := h.within
    have hbeyond := h.beyond
    rw [List.length_append] at hbeyond
    have hsmall := hmax hf
    omega

theorem written_getElem? {batches : List (List (StoredEvent E))} {frames : List (Vec UInt8)}
    (h : Written codec limit batches frames) {i : Nat} (hi : frames[i]? = some frame) :
    ∃ batch, encodeBatch batch codec limit = .ok frame := by
  induction h generalizing i with
  | nil => cases hi
  | @cons batch other batches frames hother _ ih =>
      cases i with
      | zero => exact ⟨batch, Option.some.inj hi ▸ hother⟩
      | succ i => exact ih hi

/-- A log with a wrong length in one of its frames is kept, unless the length leads beyond the end of
the file and is within the limit, and the scan gets there. -/
theorem openLog_damaged {batches : List (List (StoredEvent E))} {frames : List (Vec UInt8)}
    (h : Written codec limit batches frames) {i : Nat} (hi : frames[i]? = some frame)
    (hother : length.toNat ≠ lengthField frame.items) (hrecovery : options.recovery = .truncatePartialTail)
    (hbytes : file.bytes = damagedLog (frames.take i) frame length (frames.drop (i + 1))) :
    (¬ Truncates codec options.maxFrameBytes (frames.take i) frame length (frames.drop (i + 1)) →
      Kept batches.flatten file (openLog codec options file)) ∧
    (Faultless file → (Kept batches.flatten file (openLog codec options file) ↔
      ¬ Truncates codec options.maxFrameBytes (frames.take i) frame length (frames.drop (i + 1)))) := by
  obtain ⟨batch, hframe⟩ := written_getElem? h hi
  have hkept : ¬ Truncates codec options.maxFrameBytes (frames.take i) frame length (frames.drop (i + 1)) →
      Kept batches.flatten file (openLog codec options file) := by
    intro hno
    exact openLog_kept (List.forall₂_take i h) hframe hother hbytes hno _
  refine ⟨hkept, fun hf => ⟨fun hk ht => ?_, hkept⟩⟩
  exact openLog_truncated hframe hrecovery hbytes hf ht batches.flatten hk

def recoveringOptions : FileStoreOptions := ⟨.truncatePartialTail, .syncAll, 1024⟩

def firstFrame : Vec UInt8 := encoded retractedCodec (Common.retractedOnce.take 3)

def secondFrame : Vec UInt8 := encoded retractedCodec (Common.retractedOnce.drop 3)

def damagedFile (length : UInt64) : Files.File where
  bytes := damagedLog [] firstFrame length [secondFrame]
  fits := by
    simp only [damagedLog, framesBytes, relabelled, List.length_append, length_leBytes]
    decide +kernel
  position := 0
  locked := false
  fates n := ⟨n, .done⟩

theorem openLog_damaged_within : Kept twoBatches.flatten (damagedFile 5)
    (openLog retractedCodec recoveringOptions (damagedFile 5)) := by
  have hfirst : twoFrames[0]? = some firstFrame := rfl
  have hother : (5 : UInt64).toNat ≠ lengthField firstFrame.items := by decide +kernel
  have hbytes : (damagedFile 5).bytes = damagedLog (twoFrames.take 0) firstFrame 5 (twoFrames.drop (0 + 1)) := by
    decide +kernel
  have hbeyond : ¬ (firstFrame.items ++ framesBytes (twoFrames.drop (0 + 1))).length <
      batchHeaderLen + (5 : UInt64).toNat := by decide +kernel
  have hrecovery : recoveringOptions.recovery = .truncatePartialTail := rfl
  have h := openLog_damaged twoFrames_written hfirst hother hrecovery hbytes
  generalize openLog retractedCodec recoveringOptions (damagedFile 5) = opened at h ⊢
  exact h.1 fun ht => hbeyond ht.beyond

/-- With a length of 1000 the first frame is taken for a torn one, and both batches are gone. -/
theorem openLog_cuts_log : Written retractedCodec 64 twoBatches twoFrames ∧
    (1000 : UInt64).toNat ≠ lengthField firstFrame.items ∧
    (damagedFile 1000).bytes = damagedLog (twoFrames.take 0) firstFrame 1000 (twoFrames.drop 1) ∧
    (∃ store g, openLog retractedCodec recoveringOptions (damagedFile 1000) = .ok store g ∧
      store.inner.events = [] ∧ g.bytes = fileHeader) ∧
    ¬ Kept twoBatches.flatten (damagedFile 1000) (openLog retractedCodec recoveringOptions (damagedFile 1000)) := by
  have h : (match openLog retractedCodec recoveringOptions (damagedFile 1000) with
    | .ok store g => decide (store.inner.events = [] ∧ g.bytes = fileHeader)
    | .error _ _ => false) = true := by decide +kernel
  refine ⟨twoFrames_written, by decide +kernel, rfl, ?_⟩
  cases hr : openLog retractedCodec recoveringOptions (damagedFile 1000) with
  | error e g =>
      rw [hr] at h
      cases h
  | ok store g =>
      rw [hr] at h
      obtain ⟨hevents, hg⟩ := of_decide_eq_true h
      refine ⟨⟨store, g, rfl, hevents, hg⟩, fun hkept => ?_⟩
      have hlog : store.inner.events = twoBatches.flatten := hkept.1
      rw [hevents] at hlog
      cases hlog

end WeavatrixMemory.Store.Recovery
