import WeavatrixMemory.Library.Crc
import WeavatrixMemory.Store.Recovery

namespace WeavatrixMemory.Store.Checksum

open Error Identity Domain Words Outcome Files Blocks Crc Store.Frame Framing Scan Recovery

/-- The polynomial of CRC-32C in reflected form. -/
def castagnoli : BitVec 32 := 0x82f63b78#32

theorem castagnoli_last : castagnoli.getLsbD (32 - 1) = true := by decide

def byteBits (byte : UInt8) : List Bool := (List.range 8).map byte.toBitVec.getLsbD

/-- The bits of a byte string: bit `i` of byte `j` stands at `8 * j + i`. -/
def bitsOf (bytes : List UInt8) : List Bool := bytes.flatMap byteBits

theorem length_byteBits (byte : UInt8) : (byteBits byte).length = 8 := by
  simp [byteBits]

theorem length_bitsOf (bytes : List UInt8) : (bitsOf bytes).length = 8 * bytes.length := by
  induction bytes with
  | nil => rfl
  | cons byte bytes ih =>
      have hlength := length_byteBits byte
      rw [bitsOf, List.flatMap_cons, List.length_append, ← bitsOf, ih, List.length_cons]
      omega

theorem getElem?_bitsOf (bytes : List UInt8) (j : Nat) {i : Nat} (hi : i < 8) :
    (bitsOf bytes)[8 * j + i]? = bytes[j]?.map fun byte => byte.toBitVec.getLsbD i := by
  induction bytes generalizing j with
  | nil => simp [bitsOf]
  | cons byte bytes ih =>
      have hlength := length_byteBits byte
      rw [bitsOf, List.flatMap_cons]
      cases j with
      | zero =>
          rw [List.getElem?_append_left (by omega)]
          simp [byteBits, hi]
      | succ j =>
          rw [List.getElem?_append_right (by omega), hlength, show 8 * (j + 1) + i - 8 = 8 * j + i by omega]
          exact ih j

theorem bitsOf_inj {bytes bytes' : List UInt8} (h : bitsOf bytes = bitsOf bytes') : bytes = bytes' := by
  apply List.ext_getElem?
  intro j
  have hbit {i : Nat} (hi : i < 8) : bytes[j]?.map (fun byte => byte.toBitVec.getLsbD i) =
      bytes'[j]?.map fun byte => byte.toBitVec.getLsbD i := by
    rw [← getElem?_bitsOf bytes j hi, h, getElem?_bitsOf bytes' j hi]
  cases hbyte : bytes[j]? with
  | none =>
      have hnone := hbit (show 0 < 8 by decide)
      rw [hbyte, Option.map_none, eq_comm, Option.map_eq_none_iff] at hnone
      exact hnone.symm
  | some byte =>
      cases hbyte' : bytes'[j]? with
      | none =>
          have hnone := hbit (show 0 < 8 by decide)
          rw [hbyte, hbyte'] at hnone
          cases hnone
      | some byte' =>
          apply congrArg some
          apply UInt8.toBitVec_inj.mp
          apply BitVec.eq_of_getLsbD_eq
          intro i hi
          have hsome := hbit hi
          rw [hbyte, hbyte'] at hsome
          exact Option.some.inj hsome

theorem word_byteBits (byte : UInt8) : word (byteBits byte) = byte.toBitVec.setWidth 32 := by
  apply BitVec.eq_of_getLsbD_eq
  intro i hi
  rw [getLsbD_word, BitVec.getLsbD_setWidth]
  by_cases hlow : i < 8
  · simp [byteBits, hlow]
  · simp [byteBits, hlow, BitVec.getLsbD_of_ge byte.toBitVec i (by omega)]

theorem round_toBitVec (crc : UInt32) :
    ((crc >>> 1) ^^^ (0x82f63b78 &&& (0 - (crc &&& 1)))).toBitVec = shift castagnoli crc.toBitVec := by
  have hmask : (0x82f63b78 &&& (0 - (crc &&& 1))).toBitVec = if crc.toBitVec.getLsbD 0 then castagnoli else 0 := by
    rw [UInt32.toBitVec_and, UInt32.toBitVec_sub, UInt32.toBitVec_and]
    change _ &&& (0#32 - (crc.toBitVec &&& 1#32)) = _
    rw [BitVec.and_one_eq_setWidth_ofBool_getLsbD]
    cases crc.toBitVec.getLsbD 0 <;> rfl
  rw [UInt32.toBitVec_xor, hmask]
  rfl

theorem crc32cTable_toBitVec (index : UInt8) :
    (crc32cTable index).toBitVec = shifts castagnoli 8 (index.toBitVec.setWidth 32) := by
  have hrounds := Function.Semiconj.iterate_right (f := UInt32.toBitVec) round_toBitVec 8
  exact hrounds index.toUInt32

theorem step_toBitVec (crc : UInt32) (byte : UInt8) :
    ((crc >>> 8) ^^^ crc32cTable (crc.toUInt8 ^^^ byte)).toBitVec =
      feedAll castagnoli crc.toBitVec (byteBits byte) := by
  have hindex : (crc.toUInt8 ^^^ byte).toBitVec.setWidth 32 =
      ((crc.toBitVec ^^^ byte.toBitVec.setWidth 32).setWidth 8).setWidth 32 := by
    rw [BitVec.setWidth_xor, BitVec.setWidth_setWidth_of_le _ (by decide)]
    rfl
  rw [feedAll_table (by rw [length_byteBits]; decide), length_byteBits, word_byteBits, ← hindex, ← crc32cTable_toBitVec]
  rfl

theorem crc32c_toBitVec (bytes : List UInt8) :
    (crc32c bytes).toBitVec = ~~~ feedAll castagnoli (BitVec.allOnes 32) (bitsOf bytes) := by
  have hfold (crc : UInt32) :
      (bytes.foldl (fun (crc : UInt32) byte => (crc >>> 8) ^^^ crc32cTable (crc.toUInt8 ^^^ byte)) crc).toBitVec =
        feedAll castagnoli crc.toBitVec (bitsOf bytes) := by
    induction bytes generalizing crc with
    | nil => rfl
    | cons byte bytes ih =>
        have hbits : bitsOf (byte :: bytes) = byteBits byte ++ bitsOf bytes := rfl
        rw [List.foldl_cons, ih, step_toBitVec, hbits, feedAll_append]
  rw [crc32c, UInt32.toBitVec_not, hfold]
  rfl

/-- The masked shift that both loops over the bits repeat. -/
def maskedShift (crc : UInt32) : UInt32 := (crc >>> 1) ^^^ (0x82f63b78 &&& (0 - (crc &&& 1)))

/-- The outer loop of `crc32c_table`, with the entries that are still to be filled in. -/
def tableLoop : Nat → Nat → Vector UInt32 256 → Vector UInt32 256
  | 0, _, table => table
  | entries + 1, index, table =>
      tableLoop entries (index + 1) (table.setIfInBounds index (Nat.iterate maskedShift 8 (UInt32.ofNat index)))

def builtTable : Vector UInt32 256 := tableLoop 256 0 (Vector.replicate 256 0)

def tableCrc32c (table : Vector UInt32 256) (bytes : List UInt8) : UInt32 :=
  ~~~ bytes.foldl (fun crc byte =>
    (crc >>> 8) ^^^ table.get ⟨(crc.toUInt8 ^^^ byte).toNat, (crc.toUInt8 ^^^ byte).toNat_lt⟩) (~~~ 0)

/-- `reference_crc32c`: one bit at a time. -/
def referenceCrc32c (bytes : List UInt8) : UInt32 :=
  ~~~ bytes.foldl (fun crc byte => Nat.iterate maskedShift 8 (crc ^^^ byte.toUInt32)) (~~~ 0)

theorem getElem_tableLoop {entries index : Nat} {table : Vector UInt32 256} (hend : index + entries = 256) {i : Nat}
    (hi : i < 256) : (tableLoop entries index table)[i] =
      if i < index then table[i] else Nat.iterate maskedShift 8 (UInt32.ofNat i) := by
  induction entries generalizing index table with
  | zero => rw [tableLoop, if_pos (by omega)]
  | succ entries ih =>
      rw [tableLoop, ih (by omega), Vector.getElem_setIfInBounds hi]
      by_cases hlast : i = index
      · subst hlast
        rw [if_pos (Nat.lt_succ_self i), if_pos rfl, if_neg (Nat.lt_irrefl i)]
      · rw [if_neg (Ne.symm hlast)]
        by_cases hlt : i < index
        · rw [if_pos (Nat.lt_succ_of_lt hlt), if_pos hlt]
        · rw [if_neg (by omega), if_neg hlt]

theorem get_builtTable (byte : UInt8) : builtTable.get ⟨byte.toNat, byte.toNat_lt⟩ = crc32cTable byte := by
  have hentry := @getElem_tableLoop 256 0 (Vector.replicate 256 0) rfl byte.toNat byte.toNat_lt
  rw [if_neg (Nat.not_lt_zero _)] at hentry
  exact hentry.trans (congrArg (Nat.iterate maskedShift 8) (UInt32.ofNat_uInt8ToNat byte))

theorem maskedShifts_toBitVec (rounds : Nat) (crc : UInt32) :
    (Nat.iterate maskedShift rounds crc).toBitVec = shifts castagnoli rounds crc.toBitVec :=
  Function.Semiconj.iterate_right (f := UInt32.toBitVec) round_toBitVec rounds crc

/-- Eight shifts of the whole register are a lookup of its low byte and a shift of the rest. -/
theorem maskedShifts_eight (crc : UInt32) (byte : UInt8) : Nat.iterate maskedShift 8 (crc ^^^ byte.toUInt32) =
    (crc >>> 8) ^^^ crc32cTable (crc.toUInt8 ^^^ byte) := by
  have hword : (crc ^^^ byte.toUInt32).toBitVec = crc.toBitVec ^^^ word (byteBits byte) := by
    rw [UInt32.toBitVec_xor, word_byteBits]
    rfl
  have hfits : (byteBits byte).length ≤ 32 := by rw [length_byteBits]; decide
  apply UInt32.toBitVec_inj.mp
  rw [maskedShifts_toBitVec, hword, step_toBitVec, feedAll_eq hfits, length_byteBits]

/-- The checksum by the table is the one that takes the bits one at a time. -/
theorem crc32c_bitwise (bytes : List UInt8) :
    tableCrc32c builtTable bytes = referenceCrc32c bytes ∧ tableCrc32c builtTable bytes = crc32c bytes := by
  have htable : tableCrc32c builtTable bytes = crc32c bytes := by
    simp only [tableCrc32c, get_builtTable]
    rfl
  refine ⟨?_, htable⟩
  rw [htable, crc32c, referenceCrc32c]
  simp only [maskedShifts_eight]

theorem crc32c_ne {payload payload' : List UInt8} {start : Nat}
    (h : DifferWithin start 32 (bitsOf payload) (bitsOf payload')) (hne : payload ≠ payload') :
    crc32c payload ≠ crc32c payload' := by
  intro heq
  have hdiffer := feedAll_ne_of_differWithin castagnoli_last h (fun hbits => hne (bitsOf_inj hbits)) (BitVec.allOnes 32)
  apply hdiffer
  rw [← BitVec.not_inj, ← crc32c_toBitVec, ← crc32c_toBitVec, heq]

variable {E : Type} {codec : Codec (StoredEvent E)} {limit maxFrameBytes : Nat} {batches : List (List (StoredEvent E))}
  {frames : List (Vec UInt8)} {batch : List (StoredEvent E)} {frame : Vec UInt8} {payload : List UInt8}

def payloadBytes (frame : Vec UInt8) : List UInt8 := frame.items.drop batchHeaderLen

def altered (frame : Vec UInt8) (payload : List UInt8) : List UInt8 := frame.items.take batchHeaderLen ++ payload

def alteredLog (earlier : List (Vec UInt8)) (frame : Vec UInt8) (payload : List UInt8) (later : List (Vec UInt8)) :
    List UInt8 :=
  fileHeader ++ (framesBytes earlier ++ (altered frame payload ++ framesBytes later))

theorem readFrame_altered (h : encodeBatch batch codec limit = .ok frame) {start : Nat}
    (hburst : DifferWithin start 32 (bitsOf (payloadBytes frame)) (bitsOf payload)) (hne : payload ≠ payloadBytes frame)
    (offset : Nat) (rest : List UInt8) :
    ∃ e, e ≠ .panicked ∧ readFrame codec maxFrameBytes offset (altered frame payload ++ rest) = .error e := by
  obtain ⟨encoded, -, -, -, hframe⟩ := encodeBatch_eq_ok h
  have hfits := frame.fits
  rw [hframe, frameOf, List.length_append] at hfits
  have hheader :
      frame.items.take batchHeaderLen = batchHeader (payloadOf encoded).length (crc32c (payloadOf encoded)) := by
    rw [hframe, frameOf, List.take_left' (length_batchHeader _ _)]
  have hpayload : payloadBytes frame = payloadOf encoded := by
    rw [payloadBytes, hframe, frameOf, List.drop_left' (length_batchHeader _ _)]
  rw [hpayload] at hburst hne
  have hlength : payload.length = (payloadOf encoded).length := by
    have hbits := hburst.length_eq
    rw [length_bitsOf, length_bitsOf] at hbits
    omega
  have hcrc : crc32c payload ≠ crc32c (payloadOf encoded) := (crc32c_ne hburst hne.symm).symm
  rw [altered, hheader, List.append_assoc, readFrame_batchHeader (by omega), readBatch]
  by_cases hlimit : maxFrameBytes < (payloadOf encoded).length
  · refine ⟨corrupt (UInt64.ofNat offset) "batch exceeds configured frame limit", (returned_corrupt _ _).1, ?_⟩
    rw [throwIf, if_pos hlimit]
    rfl
  · have hsmall : ¬ 2 ^ 63 ≤ (payloadOf encoded).length := by omega
    have hlong : ¬ (payload ++ rest).length < (payloadOf encoded).length := by
      rw [List.length_append]
      omega
    refine ⟨corrupt (UInt64.ofNat offset) "batch checksum mismatch", (returned_corrupt _ _).1, ?_⟩
    rw [throwIf_of_not hlimit, throwIf_of_not hsmall]
    simp only [ok_bind, if_neg hlong]
    rw [List.take_left' hlength, throwIf, if_pos hcrc]
    rfl

theorem scan_altered (hbefore : Written codec limit batches frames) (h : encodeBatch batch codec limit = .ok frame)
    {start : Nat} (hburst : DifferWithin start 32 (bitsOf (payloadBytes frame)) (bitsOf payload))
    (hne : payload ≠ payloadBytes frame) (rest : List UInt8) :
    ∃ e, e ≠ .panicked ∧ Blocks.Scan (readFrame codec maxFrameBytes) fileHeader.length
      (framesBytes frames ++ (altered frame payload ++ rest)) (.error e) := by
  have hframing := readFrame_framing codec maxFrameBytes
  by_cases haccepted : ∀ bytes ∈ frames.map (·.items), ∃ events, Frames codec maxFrameBytes bytes events
  · obtain ⟨blocks, hblocks⟩ := exists_blocks haccepted
    obtain ⟨e, he, hread⟩ := @readFrame_altered _ _ _ maxFrameBytes _ _ _ h _ hburst hne
      (fileHeader.length + (frames.map (·.items)).flatten.length) rest
    exact ⟨e, he, scan_blocks hframing hblocks (.failed hread)⟩
  · exact scan_refused hframing (accepted_or_refused hbefore) haccepted _ _

/-- A change within 32 bits in a row of a payload changes its checksum, so that the scan of the log fails. -/
theorem burst_detected (hframes : Written codec limit batches frames) {i : Nat} (hframe : frames[i]? = some frame)
    {start : Nat} (hburst : DifferWithin start 32 (bitsOf (payloadBytes frame)) (bitsOf payload))
    (hne : payload ≠ payloadBytes frame) {file : Files.File}
    (hbytes : file.bytes = alteredLog (frames.take i) frame payload (frames.drop (i + 1))) :
    (∀ p p' start, DifferWithin start 32 (bitsOf p) (bitsOf p') → p ≠ p' → crc32c p ≠ crc32c p') ∧
    (∀ outcome g, scan codec maxFrameBytes file ≠ .ok outcome g) ∧
    (Faultless file → ∃ e g, scan codec maxFrameBytes file = .error e g ∧ e ≠ .panicked) := by
  obtain ⟨batch, hencode⟩ := written_getElem? hframes hframe
  obtain ⟨e, he, hscan⟩ := @scan_altered _ codec limit maxFrameBytes _ _ _ _ _ (List.forall₂_take i hframes) hencode _
    hburst hne (framesBytes (frames.drop (i + 1)))
  refine ⟨fun p p' start => crc32c_ne, fun outcome g hok => ?_, fun hf => ?_⟩
  · obtain ⟨-, rest, s, hrest, -, hscan'⟩ := (scan_ends codec maxFrameBytes file).of_ok hok
    rw [hbytes, alteredLog] at hrest
    rw [← List.append_cancel_left hrest] at hscan'
    cases hscan.unique hscan'
  · have hends := scan_of_faultless hf hbytes hscan
    cases hresult : scan codec maxFrameBytes file with
    | ok outcome g =>
        obtain ⟨-, s, hs, -⟩ := hends.of_ok hresult
        cases hs
    | error e' g =>
        obtain ⟨-, hsame⟩ := hends.of_error hresult
        exact ⟨e', g, rfl, Except.error.inj hsame ▸ he⟩

def alteredPayload : List UInt8 := (payloadBytes secondFrame).set 3 0x80

def alteredFile : Files.File where
  bytes := alteredLog [firstFrame] secondFrame alteredPayload []
  fits := by decide +kernel
  position := 0
  locked := false
  fates n := ⟨n, .done⟩

theorem burst_detected_second : (∀ p p' start, DifferWithin start 32 (bitsOf p) (bitsOf p') → p ≠ p' →
      crc32c p ≠ crc32c p') ∧
    (∀ outcome g, scan retractedCodec 64 alteredFile ≠ .ok outcome g) ∧
    (Faultless alteredFile → ∃ e g, scan retractedCodec 64 alteredFile = .error e g ∧ e ≠ .panicked) := by
  have hsecond : twoFrames[1]? = some secondFrame := rfl
  have hburst : DifferWithin 20 32 (bitsOf (payloadBytes secondFrame)) (bitsOf alteredPayload) := by decide +kernel
  have hne : alteredPayload ≠ payloadBytes secondFrame := by decide +kernel
  have hbytes : alteredFile.bytes = alteredLog (twoFrames.take 1) secondFrame alteredPayload (twoFrames.drop (1 + 1)) :=
    rfl
  exact burst_detected twoFrames_written hsecond hburst hne hbytes

end WeavatrixMemory.Store.Checksum
