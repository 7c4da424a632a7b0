import WeavatrixMemory.Store.Frame

namespace WeavatrixMemory.Store.Framing

open Error Identity Domain Words Blocks Store.Frame List

variable {E : Type} {codec : Codec (StoredEvent E)}

theorem take_drop_of_part {part whole : List UInt8} (h : part <+: whole) {cursor size : Nat}
    (hle : cursor + size ≤ part.length) : (part.drop cursor).take size = (whole.drop cursor).take size := by
  obtain ⟨rest, rfl⟩ := h
  rw [List.drop_append_of_le_length (by omega), List.take_append_of_le_length]
  rw [List.length_drop]
  omega

theorem take_drop_middle (front middle rest : List UInt8) :
    ((front ++ middle ++ rest).drop front.length).take middle.length = middle := by
  rw [List.append_assoc, List.drop_left, List.take_left]

theorem readLe_middle {front rest part : List UInt8} {size n : Nat} (h : part <+: front ++ leBytes size n ++ rest)
    (hn : n < 2 ^ (8 * size)) {r : Nat × Nat} :
    readLe size part front.length = some r ↔
      front.length + size ≤ part.length ∧ r = (n, front.length + size) := by
  rw [readLe_eq_some]
  apply and_congr_right
  intro hle
  have hbytes := take_drop_middle front (leBytes size n) rest
  rw [length_leBytes] at hbytes
  rw [take_drop_of_part h hle, hbytes, leValue_leBytes hn]

theorem decodeEvents_entry {front rest part : List UInt8} {bytes : Vec UInt8} {offset : UInt64} {count : Nat}
    (h : part <+: front ++ entry bytes ++ rest) {r : List (StoredEvent E) × Nat} :
    decodeEvents part codec offset (count + 1) front.length = .ok r ↔
      (front ++ entry bytes).length ≤ part.length ∧ ∃ event later, codec.decode bytes.items = .ok event ∧
        decodeEvents part codec offset count (front ++ entry bytes).length = .ok later ∧
        r = (event :: later.1, later.2) := by
  have hbytes := bytes.fits
  have hlength : front.length + 8 + bytes.items.length = (front ++ entry bytes).length := by
    rw [List.length_append, length_entry, Nat.add_assoc]
  have hwhole : front ++ entry bytes ++ rest = front ++ leBytes 8 bytes.items.length ++ (bytes.items ++ rest) := by
    simp only [entry, List.append_assoc]
  have hslice : front.length + 8 + bytes.items.length ≤ part.length →
      (part.drop (front.length + 8)).take bytes.items.length = bytes.items := by
    intro hle
    have hmiddle := take_drop_middle (front ++ leBytes 8 bytes.items.length) bytes.items rest
    rw [List.append_assoc _ bytes.items, ← hwhole, List.length_append, length_leBytes] at hmiddle
    rw [take_drop_of_part h hle, hmiddle]
  have hread := h
  rw [hwhole] at hread
  simp only [decodeEvents, bind_eq_ok, orCorrupt_eq_ok, throwIf_eq_ok, not_lt]
  constructor
  · intro hr
    obtain ⟨field, hfield, _, hle, event, hevent, later, hlater, hr⟩ := hr
    obtain ⟨-, rfl⟩ := (readLe_middle hread (by omega)).mp hfield
    rw [hslice hle] at hevent
    rw [hlength] at hle hlater
    exact ⟨hle, event, later, hevent, hlater, (Except.ok.inj hr).symm⟩
  · intro hr
    obtain ⟨hle, event, later, hevent, hlater, rfl⟩ := hr
    rw [← hlength] at hle hlater
    have hfield := (readLe_middle hread (by omega)).mpr ⟨by omega, rfl⟩
    refine ⟨_, hfield, (), hle, event, ?_, later, hlater, rfl⟩
    rw [hslice hle]
    exact hevent

theorem decodeEvents_cursor {offset : UInt64} (encoded : List (Vec UInt8)) {front rest part : List UInt8}
    (h : part <+: front ++ (encoded.map entry).flatten ++ rest) (hf : front.length ≤ part.length)
    {r : List (StoredEvent E) × Nat}
    (hr : decodeEvents part codec offset encoded.length front.length = .ok r) :
    r.2 = (front ++ (encoded.map entry).flatten).length ∧ r.2 ≤ part.length := by
  induction encoded generalizing front r with
  | nil =>
      obtain rfl := Except.ok.inj hr
      rw [List.map_nil, List.flatten_nil, List.append_nil]
      exact ⟨rfl, hf⟩
  | cons bytes encoded ih =>
      have hcons :
          front ++ ((bytes :: encoded).map entry).flatten = front ++ entry bytes ++ (encoded.map entry).flatten := by
        rw [List.map_cons, List.flatten_cons, List.append_assoc]
      have hfirst := h
      rw [hcons] at h ⊢
      rw [hcons, List.append_assoc (front ++ entry bytes)] at hfirst
      obtain ⟨hle, event, later, -, hlater, rfl⟩ := (decodeEvents_entry hfirst).mp hr
      have hrest := ih h hle hlater
      exact hrest

theorem decodeEvents_encoded (hcodec : codec.Inverts) {offset : UInt64} {events : List (StoredEvent E)}
    {encoded : List (Vec UInt8)} (h : Encodes codec events encoded) (front rest : List UInt8) :
    decodeEvents (front ++ (encoded.map entry).flatten ++ rest) codec offset encoded.length front.length =
      .ok (events, (front ++ (encoded.map entry).flatten).length) := by
  induction h generalizing front with
  | nil =>
      rw [List.map_nil, List.flatten_nil, List.append_nil]
      rfl
  | @cons event bytes events encoded hevent _ ih =>
      have hcons :
          front ++ ((bytes :: encoded).map entry).flatten = front ++ entry bytes ++ (encoded.map entry).flatten := by
        rw [List.map_cons, List.flatten_cons, List.append_assoc]
      have hstart : front ++ entry bytes ++ (encoded.map entry).flatten ++ rest <+:
          front ++ entry bytes ++ ((encoded.map entry).flatten ++ rest) := by
        refine ⟨[], ?_⟩
        rw [List.append_nil, List.append_assoc (front ++ entry bytes)]
      rw [hcons]
      apply (decodeEvents_entry hstart).mpr
      refine ⟨?_, event, _, hcodec event bytes hevent, ih (front ++ entry bytes), rfl⟩
      rw [List.append_assoc (front ++ entry bytes), @List.length_append _ (front ++ entry bytes)]
      exact Nat.le_add_right _ _

theorem decodePayload_eq_ok {payload : List UInt8} {offset : UInt64} {events : List (StoredEvent E)} :
    decodePayload payload codec offset = .ok events ↔ ∃ count, readLe 4 payload 0 = some count ∧
      decodeEvents payload codec offset count.1 count.2 = .ok (events, payload.length) := by
  simp only [decodePayload, bind_eq_ok, orCorrupt_eq_ok, throwIf_eq_ok, not_not, Except.ok.injEq]
  constructor
  · intro h
    obtain ⟨count, hcount, last, hlast, _, hend, rfl⟩ := h
    refine ⟨count, hcount, ?_⟩
    rw [hlast, ← hend]
  · intro h
    obtain ⟨count, hcount, hlast⟩ := h
    exact ⟨count, hcount, _, hlast, (), rfl, rfl⟩

theorem decodeEvents_offset {payload : List UInt8} (offset offset' : UInt64) {count cursor : Nat}
    {r : List (StoredEvent E) × Nat} (h : decodeEvents payload codec offset count cursor = .ok r) :
    decodeEvents payload codec offset' count cursor = .ok r := by
  induction count generalizing cursor r with
  | zero => exact h
  | succ count ih =>
      simp only [decodeEvents, bind_eq_ok, orCorrupt_eq_ok, throwIf_eq_ok] at h ⊢
      obtain ⟨field, hfield, _, hle, event, hevent, later, hlater, hr⟩ := h
      exact ⟨field, hfield, (), hle, event, hevent, later, ih hlater, hr⟩

theorem decodePayload_offset {payload : List UInt8} (offset offset' : UInt64) {events : List (StoredEvent E)}
    (h : decodePayload payload codec offset = .ok events) : decodePayload payload codec offset' = .ok events := by
  obtain ⟨count, hcount, hlast⟩ := decodePayload_eq_ok.mp h
  exact decodePayload_eq_ok.mpr ⟨count, hcount, decodeEvents_offset offset offset' hlast⟩

theorem decodePayload_payloadOf (hcodec : codec.Inverts) {offset : UInt64} {events : List (StoredEvent E)}
    {encoded : List (Vec UInt8)} (h : Encodes codec events encoded) (hc : encoded.length < 2 ^ 32) :
    decodePayload (payloadOf encoded) codec offset = .ok events := by
  have hcount := @readLe_middle [] (encoded.map entry).flatten (payloadOf encoded) 4 encoded.length
    (List.prefix_refl _) hc (encoded.length, 4)
  have hevents := @decodeEvents_encoded _ _ hcodec offset _ _ h (leBytes 4 encoded.length) []
  rw [List.append_nil, length_leBytes] at hevents
  apply decodePayload_eq_ok.mpr
  refine ⟨_, hcount.mpr ⟨?_, rfl⟩, hevents⟩
  rw [payloadOf, List.length_append, length_leBytes]
  exact Nat.le_add_right _ _

/-- Neither a beginning of a payload nor a continuation of it decodes. -/
theorem decodePayload_length {offset : UInt64} {encoded : List (Vec UInt8)} (hc : encoded.length < 2 ^ 32)
    {part rest : List UInt8} (h : part <+: payloadOf encoded ++ rest) {events : List (StoredEvent E)}
    (hd : decodePayload part codec offset = .ok events) : part.length = (payloadOf encoded).length := by
  obtain ⟨count, hcount, hlast⟩ := decodePayload_eq_ok.mp hd
  have hread : part <+: [] ++ leBytes 4 encoded.length ++ ((encoded.map entry).flatten ++ rest) := by
    rwa [List.nil_append, ← List.append_assoc]
  obtain ⟨hle, rfl⟩ := (readLe_middle hread hc).mp hcount
  rw [List.length_nil, Nat.zero_add] at hle
  have hcursor : ([] : List UInt8).length + 4 = (leBytes 4 encoded.length).length := (length_leBytes 4 _).symm
  simp only [hcursor] at hlast
  exact (decodeEvents_cursor encoded h ((length_leBytes 4 _).trans_le hle) hlast).1

theorem decodeEvents_returned {payload : List UInt8} {offset : UInt64} {count cursor : Nat} {e : MemoryError}
    (h : decodeEvents payload codec offset count cursor = .error e) : Returned e := by
  induction count generalizing cursor e with
  | zero => cases h
  | succ count ih =>
      simp only [decodeEvents, bind_eq_error, throwIf_eq_error] at h
      obtain hfield | ⟨field, -, hlong | ⟨_, -, hevent | ⟨event, -, hlater | ⟨later, -, hr⟩⟩⟩⟩ := h
      · rw [orCorrupt_eq_error hfield]
        exact returned_corrupt _ _
      · rw [← hlong.2]
        exact returned_corrupt _ _
      · exact codec.decode_returns hevent
      · exact ih hlater
      · cases hr

theorem decodePayload_returned {payload : List UInt8} {offset : UInt64} {e : MemoryError}
    (h : decodePayload payload codec offset = .error e) : Returned e := by
  simp only [decodePayload, bind_eq_error, throwIf_eq_error] at h
  obtain hcount | ⟨count, -, hevents | ⟨last, -, htrailing | ⟨_, -, hr⟩⟩⟩ := h
  · rw [orCorrupt_eq_error hcount]
    exact returned_corrupt _ _
  · exact decodeEvents_returned hevents
  · rw [← htrailing.2]
    exact returned_corrupt _ _
  · cases hr

def lengthField (header : List UInt8) : Nat := leValue ((header.drop 4).take 8)

def crcField (header : List UInt8) : UInt32 := UInt32.ofNat (leValue ((header.drop 12).take 4))

/-- What the scan makes of the bytes behind a header. -/
def readBatch (codec : Codec (StoredEvent E)) (maxFrameBytes offset length : Nat) (crc : UInt32)
    (rest : List UInt8) : Result (Round (List (StoredEvent E))) := do
  throwIf (maxFrameBytes < length) (corrupt (UInt64.ofNat offset) "batch exceeds configured frame limit")
  throwIf (2 ^ 63 ≤ length) .panicked
  if rest.length < length then .ok .torn
  else do
    throwIf (crc32c (rest.take length) ≠ crc) (corrupt (UInt64.ofNat offset) "batch checksum mismatch")
    let events ← decodePayload (rest.take length) codec (UInt64.ofNat offset)
    .ok (.block events (batchHeaderLen + length))

def readFrame (codec : Codec (StoredEvent E)) (maxFrameBytes offset : Nat) (rest : List UInt8) :
    Result (Round (List (StoredEvent E))) :=
  if rest = [] then .ok .complete
  else if rest.length < batchHeaderLen then .ok .torn
  else do
    let header := rest.take batchHeaderLen
    throwIf (header.take 4 ≠ batchMagic) (corrupt (UInt64.ofNat offset) "invalid batch marker")
    readBatch codec maxFrameBytes offset (lengthField header) (crcField header) (rest.drop batchHeaderLen)

structure Accepted (codec : Codec (StoredEvent E)) (maxFrameBytes : Nat) (payload : List UInt8)
    (events : List (StoredEvent E)) : Prop where
  limit : payload.length ≤ maxFrameBytes
  fits : payload.length < 2 ^ 63
  decodes : ∀ offset, decodePayload payload codec offset = .ok events

def Frames (codec : Codec (StoredEvent E)) (maxFrameBytes : Nat) (frame : List UInt8)
    (events : List (StoredEvent E)) : Prop :=
  ∃ payload, frame = frameOf payload ∧ Accepted codec maxFrameBytes payload events

theorem lengthField_batchHeader {length : Nat} (h : length < 2 ^ 64) (crc : UInt32) :
    lengthField (batchHeader length crc) = length := by
  have hmiddle := take_drop_middle batchMagic (leBytes 8 length) (leBytes 4 crc.toNat)
  rw [List.append_assoc, length_leBytes] at hmiddle
  rw [lengthField, batchHeader]
  change leValue (((batchMagic ++ _).drop batchMagic.length).take 8) = length
  rw [hmiddle, leValue_leBytes h]

theorem crcField_batchHeader (length : Nat) (crc : UInt32) : crcField (batchHeader length crc) = crc := by
  have hmiddle := take_drop_middle (batchMagic ++ leBytes 8 length) (leBytes 4 crc.toNat) []
  rw [List.append_nil, List.append_assoc, List.length_append, length_leBytes, length_leBytes] at hmiddle
  rw [crcField, batchHeader]
  change UInt32.ofNat (leValue (((batchMagic ++ _).drop (batchMagic.length + 8)).take 4)) = crc
  rw [hmiddle, leValue_leBytes crc.toNat_lt, UInt32.ofNat_toNat]

theorem batchHeader_fields {header : List UInt8} (hlen : header.length = batchHeaderLen)
    (hmagic : header.take 4 = batchMagic) : batchHeader (lengthField header) (crcField header) = header := by
  have hlength : leBytes 8 (lengthField header) = (header.drop 4).take 8 := by
    have h := leBytes_leValue ((header.drop 4).take 8)
    rw [List.length_take, List.length_drop, hlen] at h
    exact h
  have hcrc : leBytes 4 (crcField header).toNat = header.drop 12 := by
    have h := leBytes_leValue ((header.drop 12).take 4)
    have hlt := leValue_lt ((header.drop 12).take 4)
    have hall : (header.drop 12).take 4 = header.drop 12 := by
      apply List.take_of_length_le
      rw [List.length_drop, hlen]
      decide
    rw [hall] at h hlt
    rw [List.length_drop, hlen] at h hlt
    rw [crcField, hall, UInt32.toNat_ofNat_of_lt' hlt]
    exact h
  rw [batchHeader, hlength, hcrc, ← hmagic]
  have hdrop : header.drop 12 = (header.drop 4).drop 8 := by rw [List.drop_drop]
  rw [hdrop, List.take_append_drop, List.take_append_drop]

theorem readFrame_batchHeader {maxFrameBytes offset length : Nat} (h : length < 2 ^ 64) (crc : UInt32)
    (rest : List UInt8) : readFrame codec maxFrameBytes offset (batchHeader length crc ++ rest) =
      readBatch codec maxFrameBytes offset length crc rest := by
  have hlen := length_batchHeader length crc
  have htake : (batchHeader length crc ++ rest).take batchHeaderLen = batchHeader length crc := by
    rw [← hlen, List.take_left]
  have hdrop : (batchHeader length crc ++ rest).drop batchHeaderLen = rest := by
    rw [← hlen, List.drop_left]
  have hmagic : ¬ (batchHeader length crc).take 4 ≠ batchMagic := by
    rw [not_not, batchHeader]
    change (batchMagic ++ _).take batchMagic.length = batchMagic
    rw [List.take_left]
  have hne : batchHeader length crc ++ rest ≠ [] := by
    rw [← List.length_pos_iff, List.length_append, hlen]
    exact Nat.add_pos_left (by decide) _
  have hlong : ¬ (batchHeader length crc ++ rest).length < batchHeaderLen := by
    rw [List.length_append, hlen]
    omega
  rw [readFrame, if_neg hne, if_neg hlong]
  simp only [htake, hdrop, throwIf_of_not hmagic, ok_bind, lengthField_batchHeader h, crcField_batchHeader]

theorem Accepted.readBatch {maxFrameBytes offset : Nat} {payload rest : List UInt8}
    {events : List (StoredEvent E)} (h : Accepted codec maxFrameBytes payload events) :
    readBatch codec maxFrameBytes offset payload.length (crc32c payload) (payload ++ rest) =
      .ok (.block events (batchHeaderLen + payload.length)) := by
  have hlong : ¬ (payload ++ rest).length < payload.length := by
    rw [List.length_append]
    omega
  rw [Framing.readBatch, throwIf_of_not h.limit.not_gt, throwIf_of_not h.fits.not_ge]
  simp only [ok_bind, if_neg hlong, List.take_left, throwIf_of_not (not_not.mpr rfl), h.decodes]

theorem readBatch_eq_ok {maxFrameBytes offset length : Nat} {crc : UInt32} {rest : List UInt8}
    {round : Round (List (StoredEvent E))}
    (h : readBatch codec maxFrameBytes offset length crc rest = .ok round) :
    length ≤ maxFrameBytes ∧ length < 2 ^ 63 ∧ (rest.length < length ∧ round = .torn ∨
      length ≤ rest.length ∧ crc32c (rest.take length) = crc ∧ ∃ events,
        decodePayload (rest.take length) codec (UInt64.ofNat offset) = .ok events ∧
        round = .block events (batchHeaderLen + length)) := by
  simp only [readBatch, unit_bind_eq_ok, throwIf_eq_ok, not_lt, not_le] at h
  obtain ⟨hlimit, hfits, h⟩ := h
  refine ⟨hlimit, hfits, ?_⟩
  by_cases hlong : rest.length < length
  · rw [if_pos hlong] at h
    exact .inl ⟨hlong, (Except.ok.inj h).symm⟩
  · rw [if_neg hlong] at h
    simp only [bind_eq_ok, throwIf_eq_ok, not_not] at h
    obtain ⟨_, hcrc, events, hevents, hround⟩ := h
    exact .inr ⟨not_lt.mp hlong, hcrc, events, hevents, (Except.ok.inj hround).symm⟩

theorem readFrame_eq_ok {maxFrameBytes offset : Nat} {rest : List UInt8} {round : Round (List (StoredEvent E))}
    (h : readFrame codec maxFrameBytes offset rest = .ok round) :
    (rest = [] ∧ round = .complete) ∨ (rest ≠ [] ∧ round = .torn) ∨
      ∃ length crc behind, rest = batchHeader length crc ++ behind ∧
        readBatch codec maxFrameBytes offset length crc behind = .ok round := by
  rw [readFrame] at h
  by_cases hempty : rest = []
  · rw [if_pos hempty] at h
    exact .inl ⟨hempty, (Except.ok.inj h).symm⟩
  · rw [if_neg hempty] at h
    by_cases hshort : rest.length < batchHeaderLen
    · rw [if_pos hshort] at h
      exact .inr (.inl ⟨hempty, (Except.ok.inj h).symm⟩)
    · rw [if_neg hshort, unit_bind_eq_ok, throwIf_eq_ok, not_not] at h
      have hlen : (rest.take batchHeaderLen).length = batchHeaderLen := by
        rw [List.length_take]
        omega
      refine .inr (.inr ⟨_, _, rest.drop batchHeaderLen, ?_, h.2⟩)
      rw [batchHeader_fields hlen h.1, List.take_append_drop]

theorem readFrame_complete {maxFrameBytes offset : Nat} {rest : List UInt8} :
    readFrame codec maxFrameBytes offset rest = .ok .complete ↔ rest = [] := by
  constructor
  · intro h
    obtain ⟨hempty, -⟩ | ⟨-, hround⟩ | ⟨length, crc, behind, -, hread⟩ := readFrame_eq_ok h
    · exact hempty
    · cases hround
    · obtain ⟨-, -, ⟨-, hround⟩ | ⟨-, -, events, -, hround⟩⟩ := readBatch_eq_ok hread
      · cases hround
      · cases hround
  · intro h
    rw [readFrame, if_pos h]

theorem readFrame_torn {maxFrameBytes offset : Nat} {payload part : List UInt8} {events : List (StoredEvent E)}
    (h : Accepted codec maxFrameBytes payload events) (hpart : part <+: frameOf payload)
    (hne : part ≠ frameOf payload) (hempty : part ≠ []) :
    readFrame codec maxFrameBytes offset part = .ok .torn := by
  have hfits := h.fits
  by_cases hshort : part.length < batchHeaderLen
  · rw [readFrame, if_neg hempty, if_pos hshort]
  · have hheader : batchHeader payload.length (crc32c payload) <+: part := by
      apply List.prefix_of_prefix_length_le (List.prefix_append _ payload) hpart
      rw [length_batchHeader]
      omega
    obtain ⟨behind, rfl⟩ := hheader
    have hbehind : behind.length < payload.length := by
      have hle := (List.prefix_append_right_inj _).mp hpart
      apply lt_of_le_of_ne hle.length_le
      intro hlen
      exact hne (congrArg _ (hle.eq_of_length hlen))
    rw [readFrame_batchHeader (by omega), readBatch, throwIf_of_not h.limit.not_gt, throwIf_of_not hfits.not_ge]
    simp only [ok_bind, if_pos hbehind]

theorem readFrame_framing (codec : Codec (StoredEvent E)) (maxFrameBytes : Nat) :
    Blocks.Framing (readFrame codec maxFrameBytes) (Frames codec maxFrameBytes) where
  nonempty := by
    intro xs events h
    obtain ⟨payload, rfl, -⟩ := h
    rw [← List.length_pos_iff, frameOf, List.length_append, length_batchHeader]
    exact Nat.add_pos_left (by decide) _
  complete := readFrame_complete
  whole := by
    intro xs events offset rest h
    obtain ⟨payload, rfl, ha⟩ := h
    have hfits := ha.fits
    rw [frameOf, List.append_assoc, readFrame_batchHeader (by omega), ha.readBatch, List.length_append,
      length_batchHeader]
  torn := by
    intro xs events part offset h hpart hne hempty
    obtain ⟨payload, rfl, ha⟩ := h
    exact readFrame_torn ha hpart hne hempty
  sound := by
    intro offset rest events length h
    obtain ⟨-, hround⟩ | ⟨-, hround⟩ | ⟨length, crc, behind, rfl, hread⟩ := readFrame_eq_ok h
    · cases hround
    · cases hround
    · obtain ⟨hlimit, hfits, ⟨-, hround⟩ | ⟨hle, hcrc, events, hevents, hround⟩⟩ := readBatch_eq_ok hread
      · cases hround
      · cases hround
        have hlen : (behind.take length).length = length := List.length_take_of_le hle
        rw [List.length_append, length_batchHeader]
        refine ⟨⟨behind.take length, ?_, ?_, ?_, ?_⟩, Nat.add_le_add_left hle _⟩
        · rw [← length_batchHeader length crc, List.take_length_add_append, frameOf, hlen, hcrc]
        · rwa [hlen]
        · rwa [hlen]
        · exact fun offset => decodePayload_offset _ _ hevents

theorem frames_of_encodeBatch (hcodec : codec.Inverts) {maxFrameBytes : Nat} {events : List (StoredEvent E)}
    {frame : Vec UInt8} (h : encodeBatch events codec maxFrameBytes = .ok frame) :
    Frames codec maxFrameBytes frame.items events := by
  obtain ⟨encoded, hencoded, hcount, hlimit, hframe⟩ := encodeBatch_eq_ok h
  have hfits := frame.fits
  rw [hframe, frameOf, List.length_append] at hfits
  exact ⟨payloadOf encoded, hframe, hlimit, (Nat.le_add_left _ _).trans_lt hfits,
    fun offset => decodePayload_payloadOf hcodec hencoded hcount⟩

end WeavatrixMemory.Store.Framing
