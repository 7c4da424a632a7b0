import WeavatrixMemory.Codecs.Basic
import WeavatrixMemory.Store.Frame

namespace WeavatrixMemory.Codecs.Compression

open Error Identity Words Codecs.Basic
open Store.Frame (extendFromSlice extendFromSlice_eq_ok)

variable {T : Type}

/-- The block functions of the compression crate. They write into a buffer of a given size. -/
structure Block where
  maximumOutputSize : Nat → Nat
  compressInto : List UInt8 → Nat → Option (List UInt8)
  decompressInto : List UInt8 → Nat → Option (List UInt8)

structure Block.Inverts (block : Block) : Prop where
  roomy : ∀ n, n ≤ block.maximumOutputSize n
  compresses : ∀ raw, ∃ compressed, block.compressInto raw (block.maximumOutputSize raw.length) = some compressed
  restores : ∀ raw compressed, block.compressInto raw (block.maximumOutputSize raw.length) = some compressed →
    block.decompressInto compressed raw.length = some raw

/-- The eight bytes `WMEMLZ01`. -/
def header : List UInt8 := [0x57, 0x4d, 0x45, 0x4d, 0x4c, 0x5a, 0x30, 0x31]

def headerLen : Nat := 25

def modeRaw : UInt8 := 0

def modeLz4 : UInt8 := 1

def codec (message : String) : MemoryError := .codec message

def invalid (reason : String) : MemoryError := .invalidValue "max_decoded_bytes" reason

def orCodec {α : Type} (message : String) : Option α → Result α
  | some a => .ok a
  | none => .error (codec message)

structure Lz4Codec (T : Type) where
  inner : Codec T
  maxDecodedBytes : Nat
  positive : maxDecodedBytes ≠ 0

def Lz4Codec.new (inner : Codec T) (maxDecodedBytes : Nat) : Result (Lz4Codec T) :=
  if h : maxDecodedBytes ≠ 0 then .ok ⟨inner, maxDecodedBytes, h⟩
  else .error (invalid "must be greater than zero")

def envelopeOf (mode : UInt8) (rawLen storedLen : Nat) (payload : List UInt8) : List UInt8 :=
  header ++ (mode :: (leBytes 8 rawLen ++ (leBytes 8 storedLen ++ payload)))

/-- `encode` from the encoded value on. -/
def compress (block : Block) (maxDecodedBytes : Nat) (raw : Vec UInt8) : Result (Vec UInt8) := do
  throwIf (maxDecodedBytes < raw.items.length) (invalid "encoded value exceeds max_decoded_bytes")
  let capacity ← usizeChecked (headerLen + block.maximumOutputSize raw.items.length)
  throwIf (2 ^ 63 ≤ capacity) .panicked
  let compressed ← orCodec "LZ4 output capacity was insufficient"
    (block.compressInto raw.items (block.maximumOutputSize raw.items.length))
  throwIf (raw.items.length ≤ compressed.length ∧ capacity < headerLen + raw.items.length) .panicked
  let (mode, payload) :=
    if compressed.length < raw.items.length then (modeLz4, compressed) else (modeRaw, raw.items)
  let rawLen ← u64TryFrom raw.items.length
  let storedLen ← u64TryFrom payload.length
  extendFromSlice ⟨[], nil_fits⟩ (envelopeOf mode rawLen.toNat storedLen.toNat payload)

/-- `decode` up to the value that is left to decode. -/
def decompress (block : Block) (maxDecodedBytes : Nat) (bytes : List UInt8) : Result (List UInt8) := do
  throwIf (bytes.length < headerLen ∨ bytes.take 8 ≠ header) (codec "unsupported LZ4 envelope")
  let rawLen := leValue ((bytes.drop 9).take 8)
  throwIf (maxDecodedBytes < rawLen) (codec "decoded value exceeds configured size limit")
  let storedLen := leValue ((bytes.drop 17).take 8)
  let envelopeLen ← usizeChecked (headerLen + storedLen)
  throwIf (bytes.length ≠ envelopeLen) (codec "compressed envelope length mismatch")
  let payload := bytes.drop headerLen
  if bytes[8]? = some modeRaw then do
    throwIf (payload.length ≠ rawLen) (codec "raw payload length mismatch")
    .ok payload
  else if bytes[8]? = some modeLz4 then do
    throwIf (2 ^ 63 ≤ rawLen) .panicked
    let raw ← orCodec "invalid LZ4 payload" (block.decompressInto payload rawLen)
    throwIf (raw.length ≠ rawLen) (codec "decoded payload length mismatch")
    .ok raw
  else .error (codec "unsupported compression mode")

def Lz4Codec.toCodec (block : Block) (lz4 : Lz4Codec T) : Codec T where
  encode value := do
    let raw ← lz4.inner.encode value
    compress block lz4.maxDecodedBytes raw
  decode bytes := do
    let raw ← decompress block lz4.maxDecodedBytes bytes
    lz4.inner.decode raw

variable {block : Block} {maxDecodedBytes : Nat}

theorem length_envelopeOf (mode : UInt8) (rawLen storedLen : Nat) (payload : List UInt8) :
    (envelopeOf mode rawLen storedLen payload).length = headerLen + payload.length := by
  simp only [envelopeOf, List.length_append, List.length_cons, length_leBytes, header, headerLen, List.length_nil]
  omega

theorem compress_eq_ok {raw bytes : Vec UInt8} (h : compress block maxDecodedBytes raw = .ok bytes) :
    raw.items.length ≤ maxDecodedBytes ∧
      ∃ mode payload, bytes.items = envelopeOf mode raw.items.length payload.length payload ∧
        (mode = modeRaw ∧ payload = raw.items ∨ mode = modeLz4 ∧
          block.compressInto raw.items (block.maximumOutputSize raw.items.length) = some payload) := by
  simp only [compress, bind_eq_ok, throwIf_eq_ok, not_lt, u64TryFrom_eq_ok] at h
  obtain ⟨-, hmax, capacity, -, -, -, compressed, hc, -, -, rawLen, hraw, storedLen, hstored, hbytes⟩ := h
  have hitems := extendFromSlice_eq_ok hbytes
  rw [hraw, hstored, List.nil_append] at hitems
  refine ⟨hmax, _, _, hitems, ?_⟩
  split
  next =>
    cases hb : block.compressInto raw.items (block.maximumOutputSize raw.items.length) with
    | none =>
        rw [hb] at hc
        cases hc
    | some other =>
        rw [hb] at hc
        exact .inr ⟨rfl, congrArg some (Except.ok.inj hc)⟩
  next => exact .inl ⟨rfl, rfl⟩

theorem decompress_envelopeOf {mode : UInt8} {rawLen : Nat} {payload : List UInt8} (hraw : rawLen < 2 ^ 64)
    (hmax : rawLen ≤ maxDecodedBytes) (hfits : headerLen + payload.length < 2 ^ 63) :
    decompress block maxDecodedBytes (envelopeOf mode rawLen payload.length payload) =
      if mode = modeRaw then do
        throwIf (payload.length ≠ rawLen) (codec "raw payload length mismatch")
        .ok payload
      else if mode = modeLz4 then do
        throwIf (2 ^ 63 ≤ rawLen) .panicked
        let raw ← orCodec "invalid LZ4 payload" (block.decompressInto payload rawLen)
        throwIf (raw.length ≠ rawLen) (codec "decoded payload length mismatch")
        .ok raw
      else .error (codec "unsupported compression mode") := by
  have hmagic : (envelopeOf mode rawLen payload.length payload).take 8 = header := List.take_left' rfl
  have hmode : (envelopeOf mode rawLen payload.length payload)[8]? = some mode := rfl
  have htail : (envelopeOf mode rawLen payload.length payload).drop 9 =
      leBytes 8 rawLen ++ (leBytes 8 payload.length ++ payload) := rfl
  have hfirst : ((envelopeOf mode rawLen payload.length payload).drop 9).take 8 = leBytes 8 rawLen := by
    rw [htail]
    exact List.take_left' (length_leBytes 8 _)
  have hnext : (envelopeOf mode rawLen payload.length payload).drop 17 = leBytes 8 payload.length ++ payload := by
    rw [show (17 : Nat) = 9 + 8 from rfl, ← List.drop_drop, htail]
    exact List.drop_left' (length_leBytes 8 _)
  have hsecond : ((envelopeOf mode rawLen payload.length payload).drop 17).take 8 = leBytes 8 payload.length := by
    rw [hnext]
    exact List.take_left' (length_leBytes 8 _)
  have hpayload : (envelopeOf mode rawLen payload.length payload).drop headerLen = payload := by
    rw [show headerLen = 17 + 8 from rfl, ← List.drop_drop, hnext]
    exact List.drop_left' (length_leBytes 8 _)
  have hlen := length_envelopeOf mode rawLen payload.length payload
  have hrawValue : leValue (leBytes 8 rawLen) = rawLen := leValue_leBytes hraw
  have hstoredValue : leValue (leBytes 8 payload.length) = payload.length := leValue_leBytes (by omega)
  have hshort : ¬ (headerLen + payload.length < headerLen ∨ False) := by simp
  have hchecked : usizeChecked (headerLen + payload.length) = .ok (headerLen + payload.length) :=
    if_pos (hfits.trans (by decide))
  simp only [decompress, hmagic, hmode, hfirst, hsecond, hpayload, hlen, hrawValue, hstoredValue,
    throwIf_of_not hshort, throwIf_of_not (Nat.not_lt.mpr hmax), hchecked, ok_bind, ne_eq, not_true_eq_false,
    not_false_eq_true, throwIf_of_not, Option.some.injEq]

theorem decompress_compress (hblock : block.Inverts) {raw bytes : Vec UInt8}
    (h : compress block maxDecodedBytes raw = .ok bytes) :
    decompress block maxDecodedBytes bytes.items = .ok raw.items := by
  obtain ⟨hmax, mode, payload, hitems, hmode⟩ := compress_eq_ok h
  have hfits := bytes.fits
  rw [hitems, length_envelopeOf] at hfits
  rw [hitems, decompress_envelopeOf (raw.fits.trans (by decide)) hmax hfits]
  obtain ⟨rfl, rfl⟩ | ⟨rfl, hcompressed⟩ := hmode
  · rw [if_pos rfl, throwIf_of_not (not_not.mpr rfl), ok_bind]
  · rw [if_neg (by decide), if_pos rfl, throwIf_of_not (Nat.not_le.mpr raw.fits), ok_bind,
      hblock.restores _ _ hcompressed, orCodec, ok_bind, throwIf_of_not (not_not.mpr rfl), ok_bind]

theorem compress_of_le (hblock : block.Inverts) {raw : Vec UInt8} (hmax : raw.items.length ≤ maxDecodedBytes)
    (hcapacity : headerLen + block.maximumOutputSize raw.items.length < 2 ^ 63) :
    ∃ bytes, compress block maxDecodedBytes raw = .ok bytes := by
  obtain ⟨compressed, hc⟩ := hblock.compresses raw.items
  have hroomy := hblock.roomy raw.items.length
  have hchecked : usizeChecked (headerLen + block.maximumOutputSize raw.items.length) =
      .ok (headerLen + block.maximumOutputSize raw.items.length) := if_pos (hcapacity.trans (by decide))
  have hroom : ¬ (raw.items.length ≤ compressed.length ∧
      headerLen + block.maximumOutputSize raw.items.length < headerLen + raw.items.length) := by omega
  have hraw : u64TryFrom raw.items.length = .ok (UInt64.ofNat raw.items.length) :=
    if_pos (raw.fits.trans (by decide))
  have hlast (mode : UInt8) (rawLen : Nat) (payload : List UInt8) (hp : payload.length ≤ raw.items.length) :
      ∃ bytes, (do
        let storedLen ← u64TryFrom payload.length
        extendFromSlice ⟨[], nil_fits⟩ (envelopeOf mode rawLen storedLen.toNat payload)) = .ok bytes := by
    have hstored : u64TryFrom payload.length = .ok (UInt64.ofNat payload.length) :=
      if_pos (hp.trans_lt (raw.fits.trans (by decide)))
    have hfits : (([] : List UInt8) ++ envelopeOf mode rawLen (UInt64.ofNat payload.length).toNat payload).length <
        2 ^ 63 := by
      rw [List.nil_append, length_envelopeOf]
      omega
    rw [hstored, ok_bind]
    exact ⟨_, dif_pos hfits⟩
  simp only [compress, throwIf_of_not (Nat.not_lt.mpr hmax), hchecked, throwIf_of_not (Nat.not_le.mpr hcapacity), hc,
    orCodec, throwIf_of_not hroom, hraw, ok_bind]
  split
  next hlt => exact hlast _ _ _ hlt.le
  next => exact hlast _ _ _ le_rfl

def announced (bytes : List UInt8) : Nat := leValue ((bytes.drop 9).take 8)

/-- `decode` with the slices and index expressions of the source, which panic out of range. -/
def decompressIndexed (block : Block) (maxDecodedBytes : Nat) (bytes : List UInt8) : Result (List UInt8) := do
  throwIf (bytes.length < headerLen) (codec "unsupported LZ4 envelope")
  let magic ← sliceAt bytes 0 8
  throwIf (magic ≠ header) (codec "unsupported LZ4 envelope")
  let rawField ← sliceAt bytes 9 17
  let rawLen := leValue rawField
  throwIf (maxDecodedBytes < rawLen) (codec "decoded value exceeds configured size limit")
  let storedField ← sliceAt bytes 17 25
  let envelopeLen ← usizeChecked (headerLen + leValue storedField)
  throwIf (bytes.length ≠ envelopeLen) (codec "compressed envelope length mismatch")
  let payload ← sliceAt bytes headerLen bytes.length
  let mode ← getAt bytes 8
  if mode = modeRaw then do
    throwIf (payload.length ≠ rawLen) (codec "raw payload length mismatch")
    .ok payload
  else if mode = modeLz4 then do
    throwIf (2 ^ 63 ≤ rawLen) .panicked
    let raw ← orCodec "invalid LZ4 payload" (block.decompressInto payload rawLen)
    throwIf (raw.length ≠ rawLen) (codec "decoded payload length mismatch")
    .ok raw
  else .error (codec "unsupported compression mode")

theorem decompressIndexed_eq (bytes : List UInt8) :
    decompressIndexed block maxDecodedBytes bytes = decompress block maxDecodedBytes bytes := by
  by_cases hlong : headerLen ≤ bytes.length
  · have hlen : 25 ≤ bytes.length := hlong
    have hmagic : sliceAt bytes 0 8 = .ok (bytes.take 8) := sliceAt_of_le (by omega) (by omega)
    have hraw : sliceAt bytes 9 17 = .ok ((bytes.drop 9).take 8) := sliceAt_of_le (by omega) (by omega)
    have hstored : sliceAt bytes 17 25 = .ok ((bytes.drop 17).take 8) := sliceAt_of_le (by omega) (by omega)
    have hpayload : sliceAt bytes headerLen bytes.length = .ok (bytes.drop headerLen) := by
      rw [sliceAt_of_le hlong le_rfl, ← List.length_drop, List.take_length]
    have hmode : getAt bytes 8 = .ok bytes[8] := getAt_eq_ok.mpr (List.getElem?_eq_getElem _)
    have hget : bytes[8]? = some bytes[8] := List.getElem?_eq_getElem _
    simp only [decompressIndexed, decompress, Nat.not_lt.mpr hlong, false_or, not_false_eq_true, throwIf_of_not, hmagic,
      hraw, hstored, hpayload, hmode, hget, ok_bind, Option.some.injEq]
  · have hshort : bytes.length < headerLen := not_le.mp hlong
    have hrefused : throwIf True (codec "unsupported LZ4 envelope") = .error (codec "unsupported LZ4 envelope") :=
      if_pos trivial
    simp only [decompressIndexed, decompress, hshort, true_or, hrefused, error_bind]

theorem decompress_eq_ok {bytes raw : List UInt8} (h : decompress block maxDecodedBytes bytes = .ok raw) :
    raw.length = announced bytes ∧ announced bytes ≤ maxDecodedBytes ∧
      bytes.length = headerLen + leValue ((bytes.drop 17).take 8) := by
  simp only [decompress, bind_eq_ok, throwIf_eq_ok, not_lt, not_not, usizeChecked_eq_ok] at h
  obtain ⟨-, -, -, hmax, _, ⟨-, rfl⟩, -, hexact, hrest⟩ := h
  refine ⟨?_, hmax, hexact⟩
  split at hrest
  next =>
    obtain ⟨⟨⟩, hlength, hraw⟩ := bind_eq_ok.mp hrest
    rw [← Except.ok.inj hraw]
    exact not_not.mp (throwIf_eq_ok.mp hlength)
  next =>
    split at hrest
    next =>
      simp only [bind_eq_ok, throwIf_eq_ok, not_not] at hrest
      obtain ⟨-, -, other, -, -, hlength, hraw⟩ := hrest
      rwa [← Except.ok.inj hraw]
    next => cases hrest

theorem orCodec_eq_error {α : Type} {message : String} {o : Option α} {e : MemoryError}
    (h : orCodec message o = .error e) : e = codec message := by
  cases o with
  | some a => cases h
  | none => exact (Except.error.inj h).symm

/-- The envelope length is checked before anything is allocated. -/
theorem decompress_eq_error {bytes : List UInt8} {e : MemoryError}
    (h : decompress block maxDecodedBytes bytes = .error e) :
    e ≠ .panicked ∨ 2 ^ 63 ≤ announced bytes ∧ announced bytes ≤ maxDecodedBytes ∧
      bytes.length = headerLen + leValue ((bytes.drop 17).take 8) := by
  simp only [decompress, bind_eq_error, throwIf_eq_error, throwIf_eq_ok] at h
  obtain ⟨-, rfl⟩ | ⟨-, -, ⟨-, rfl⟩ | ⟨-, hmax, hlength | ⟨envelopeLen, hlength, ⟨-, rfl⟩ | ⟨-, hsame, hrest⟩⟩⟩⟩ := h
  · exact .inl (by simp [codec])
  · exact .inl (by simp [codec])
  · rw [usizeChecked] at hlength
    split at hlength
    · cases hlength
    · exact .inl (by simp [← Except.error.inj hlength])
  · exact .inl (by simp [codec])
  · have hexact : bytes.length = headerLen + leValue ((bytes.drop 17).take 8) :=
      (not_not.mp hsame).trans (usizeChecked_eq_ok.mp hlength).2.symm
    split at hrest
    next =>
      obtain hmismatch | ⟨-, -, hok⟩ := bind_eq_error.mp hrest
      · rw [← (throwIf_eq_error.mp hmismatch).2]
        exact .inl (by simp [codec])
      · cases hok
    next =>
      split at hrest
      next =>
        simp only [bind_eq_error, throwIf_eq_error, throwIf_eq_ok, reduceCtorEq, and_false, exists_const,
          or_false] at hrest
        obtain ⟨hwide, -⟩ | ⟨-, hinvalid | ⟨-, -, -, rfl⟩⟩ := hrest
        · exact .inr ⟨hwide, not_lt.mp hmax, hexact⟩
        · exact .inl (by simp [codec, orCodec_eq_error hinvalid])
        · exact .inl (by simp [codec])
      next => exact .inl (by simp [codec, ← Except.error.inj hrest])

theorem decompress_of_length_ne {bytes : List UInt8} (h : bytes.length ≠ headerLen + leValue ((bytes.drop 17).take 8)) :
    ∃ e, e ≠ .panicked ∧ decompress block maxDecodedBytes bytes = .error e := by
  cases hdecompress : decompress block maxDecodedBytes bytes with
  | ok raw => exact absurd (decompress_eq_ok hdecompress).2.2 h
  | error e =>
      obtain hne | ⟨-, -, hsame⟩ := decompress_eq_error hdecompress
      · exact ⟨e, hne, rfl⟩
      · exact absurd hsame h

/-- An envelope is no longer what it was once it has been cut or extended. -/
theorem decompress_prefixed {mode : UInt8} {rawLen : Nat} {payload other : List UInt8}
    (hfits : headerLen + payload.length < 2 ^ 64) (hne : other ≠ envelopeOf mode rawLen payload.length payload)
    (h : other <+: envelopeOf mode rawLen payload.length payload ∨
      envelopeOf mode rawLen payload.length payload <+: other) :
    ∃ e, e ≠ .panicked ∧ decompress block maxDecodedBytes other = .error e := by
  have hlength := length_envelopeOf mode rawLen payload.length payload
  have hother : other.length ≠ headerLen + payload.length := by
    rw [← hlength]
    intro hsame
    obtain hstart | hstart := h
    · exact hne (hstart.eq_of_length hsame)
    · exact hne (hstart.eq_of_length hsame.symm).symm
  have hfield (bytes : List UInt8) : (bytes.drop 17).take 8 = (bytes.take headerLen).drop 17 := by
    rw [List.drop_take]
    rfl
  have hstored : ((envelopeOf mode rawLen payload.length payload).drop 17).take 8 = leBytes 8 payload.length := by
    have htail : (envelopeOf mode rawLen payload.length payload).drop 9 =
        leBytes 8 rawLen ++ (leBytes 8 payload.length ++ payload) := rfl
    rw [show (17 : Nat) = 9 + 8 from rfl, ← List.drop_drop, htail, List.drop_left' (length_leBytes 8 _)]
    exact List.take_left' (length_leBytes 8 _)
  apply decompress_of_length_ne
  by_cases hshort : other.length < headerLen
  · omega
  · have htake : other.take headerLen = (envelopeOf mode rawLen payload.length payload).take headerLen := by
      obtain ⟨rest, hrest⟩ | ⟨rest, rfl⟩ := h
      · rw [← hrest, List.take_append_of_le_length (not_lt.mp hshort)]
      · rw [List.take_append_of_le_length (by omega)]
    rw [hfield, htake, ← hfield, hstored, leValue_leBytes (by omega)]
    exact hother

theorem compress_length_le {raw bytes : Vec UInt8} (h : compress block maxDecodedBytes raw = .ok bytes) :
    bytes.items.length ≤ raw.items.length + headerLen := by
  simp only [compress, bind_eq_ok, throwIf_eq_ok, not_lt, u64TryFrom_eq_ok] at h
  obtain ⟨-, -, capacity, -, -, -, compressed, -, -, -, rawLen, -, storedLen, -, hbytes⟩ := h
  rw [extendFromSlice_eq_ok hbytes, List.nil_append, length_envelopeOf, Nat.add_comm]
  apply Nat.add_le_add_right
  split
  next hlt => exact hlt.le
  next => exact le_rfl

theorem compress_iff (hblock : block.Inverts) {raw : Vec UInt8} :
    (∃ bytes, compress block maxDecodedBytes raw = .ok bytes) ↔
    raw.items.length ≤ maxDecodedBytes ∧ headerLen + block.maximumOutputSize raw.items.length < 2 ^ 63 := by
  constructor
  · rintro ⟨bytes, h⟩
    simp only [compress, bind_eq_ok, throwIf_eq_ok, not_lt, not_le, usizeChecked_eq_ok] at h
    obtain ⟨-, hmax, _, ⟨-, rfl⟩, -, hfits, -⟩ := h
    exact ⟨hmax, hfits⟩
  · rintro ⟨hmax, hfits⟩
    exact compress_of_le hblock hmax hfits

theorem envelope_restores (hblock : block.Inverts) (lz4 : Lz4Codec T) (hinner : lz4.inner.RoundTrips) :
    (∀ value raw, lz4.inner.encode value = .ok raw → raw.items.length ≤ lz4.maxDecodedBytes →
      ((∃ bytes, (lz4.toCodec block).encode value = .ok bytes) ↔
        headerLen + block.maximumOutputSize raw.items.length < 2 ^ 63) ∧
      ∀ bytes, (lz4.toCodec block).encode value = .ok bytes →
        (lz4.toCodec block).decode bytes.items = .ok value ∧ bytes.items.length ≤ raw.items.length + 25 ∧
        ∀ other, other ≠ bytes.items → (other <+: bytes.items ∨ bytes.items <+: other) →
          ∃ e, e ≠ .panicked ∧ (lz4.toCodec block).decode other = .error e) ∧
    ∀ bytes,
      (lz4.toCodec block).decode bytes = decompressIndexed block lz4.maxDecodedBytes bytes >>= lz4.inner.decode ∧
      (∀ raw, decompressIndexed block lz4.maxDecodedBytes bytes = .ok raw →
        raw.length = announced bytes ∧ raw.length ≤ lz4.maxDecodedBytes) ∧
      (decompressIndexed block lz4.maxDecodedBytes bytes = .error .panicked →
        2 ^ 63 ≤ announced bytes ∧ announced bytes ≤ lz4.maxDecodedBytes) := by
  constructor
  · intro value raw hraw hmax
    have hencode : (lz4.toCodec block).encode value = compress block lz4.maxDecodedBytes raw := by
      change lz4.inner.encode value >>= _ = _
      rw [hraw, ok_bind]
    have hdecode (bytes : List UInt8) : (lz4.toCodec block).decode bytes =
        decompress block lz4.maxDecodedBytes bytes >>= lz4.inner.decode := rfl
    rw [hencode, compress_iff hblock, and_iff_right hmax]
    refine ⟨Iff.rfl, fun bytes hbytes => ⟨?_, compress_length_le hbytes, fun other hne hstart => ?_⟩⟩
    · rw [hdecode, decompress_compress hblock hbytes, ok_bind, hinner value raw hraw]
    · obtain ⟨-, mode, payload, hitems, -⟩ := compress_eq_ok hbytes
      have hfits := bytes.fits
      rw [hitems] at hne hstart
      rw [hitems, length_envelopeOf] at hfits
      obtain ⟨e, he, hrejected⟩ := @decompress_prefixed block lz4.maxDecodedBytes mode raw.items.length payload other
        (by omega) hne hstart
      refine ⟨e, he, ?_⟩
      rw [hdecode, hrejected, error_bind]
  · intro bytes
    rw [decompressIndexed_eq]
    refine ⟨rfl, fun raw hraw => ?_, fun hpanicked => ?_⟩
    · obtain ⟨hlength, hmax, -⟩ := decompress_eq_ok hraw
      exact ⟨hlength, hlength.trans_le hmax⟩
    · obtain hne | ⟨hwide, hmax, -⟩ := decompress_eq_error hpanicked
      · exact absurd rfl hne
      · exact ⟨hwide, hmax⟩

/-- Blocks of up to 14 bytes in which nothing repeats: a byte for the length, and the bytes. -/
def literals : Block where
  maximumOutputSize n := 20 + n * 110 / 100
  compressInto raw _ := some (UInt8.ofNat (16 * raw.length) :: raw)
  decompressInto payload n := if payload.length = n + 1 then some payload.tail else none

theorem literals_inverts : literals.Inverts where
  roomy n := by
    change n ≤ 20 + n * 110 / 100
    omega
  compresses raw := ⟨_, rfl⟩
  restores raw compressed h := by
    obtain rfl := Option.some.inj h
    exact if_pos rfl

def tiny : Vec UInt8 := ⟨[1, 2, 3], by decide⟩

theorem envelope_restores_tiny : ∃ bytes,
    (Lz4Codec.toCodec literals ⟨bytesCodec, 64, by decide⟩).encode tiny = .ok bytes ∧
    (Lz4Codec.toCodec literals ⟨bytesCodec, 64, by decide⟩).decode bytes.items = .ok tiny ∧
    bytes.items.length ≤ 28 ∧
    ∃ e, e ≠ .panicked ∧
      (Lz4Codec.toCodec literals ⟨bytesCodec, 64, by decide⟩).decode (bytes.items ++ [0]) = .error e := by
  obtain ⟨hencode, hbytes⟩ := (envelope_restores literals_inverts ⟨bytesCodec, 64, by decide⟩ bytesCodec_roundTrips).1
    tiny tiny rfl (by decide)
  obtain ⟨bytes, h⟩ := hencode.mpr (by decide)
  obtain ⟨hdecode, hlength, hrejected⟩ := hbytes bytes h
  exact ⟨bytes, h, hdecode, hlength, hrejected _ (by simp) (.inr (List.prefix_append _ _))⟩

end WeavatrixMemory.Codecs.Compression
