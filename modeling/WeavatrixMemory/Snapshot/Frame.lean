import WeavatrixMemory.Store.Frame

namespace WeavatrixMemory.Snapshot.Frame

open Error Identity Words
open Store.Frame (crc32c extendFromSlice extendFromSlice_eq_ok extendFromSlice_of_lt)

/-- The eight bytes `WMEMSN01`. -/
def header : List UInt8 := [0x57, 0x4d, 0x45, 0x4d, 0x53, 0x4e, 0x30, 0x31]

def headerLen : Nat := 20

def corrupt (reason : String) : MemoryError := .corruptLog 0 reason

def encode (bytes : Vec UInt8) : Result (Vec UInt8) := do
  let length ← u64TryFrom bytes.items.length
  let frame ← extendFromSlice ⟨[], nil_fits⟩ header
  let frame ← extendFromSlice frame (leBytes 8 length.toNat)
  let frame ← extendFromSlice frame (leBytes 4 (crc32c bytes.items).toNat)
  extendFromSlice frame bytes.items

def validateHeader (bytes : List UInt8) (maxBytes : Nat) : Result (Nat × UInt32) := do
  throwIf (bytes.take 8 ≠ header) (corrupt "unsupported snapshot header")
  let length := leValue ((bytes.drop 8).take 8)
  throwIf (maxBytes < length) (corrupt "snapshot exceeds configured size limit")
  .ok (length, UInt32.ofNat (leValue ((bytes.drop 16).take 4)))

/-- The file is read from its start. A vector of the announced length is allocated before the payload
is read. -/
def readBuffered (file : List UInt8) (maxBytes : Nat) : Result (List UInt8) := do
  throwIf (file.length < headerLen) (.io "read snapshot header" "failed to fill whole buffer")
  let (length, expectedCrc) ← validateHeader (file.take headerLen) maxBytes
  throwIf (2 ^ 63 ≤ length) .panicked
  throwIf (file.length < headerLen + length) (.io "read snapshot payload" "failed to fill whole buffer")
  let bytes := (file.drop headerLen).take length
  throwIf (file.length ≠ headerLen + length ∨ crc32c bytes ≠ expectedCrc)
    (corrupt "snapshot length or checksum mismatch")
  .ok bytes

def readMapped (mapped : List UInt8) (maxBytes : Nat) : Result (List UInt8) := do
  throwIf (mapped.length < headerLen) (corrupt "truncated snapshot header")
  let (length, expectedCrc) ← validateHeader (mapped.take headerLen) maxBytes
  throwIf (2 ^ 64 ≤ headerLen + length) .capacityOverflow
  throwIf (mapped.length ≠ headerLen + length) (corrupt "snapshot length mismatch")
  throwIf (crc32c (mapped.drop headerLen) ≠ expectedCrc) (corrupt "snapshot checksum mismatch")
  .ok (mapped.drop headerLen)

def read (file : List UInt8) (maxBytes : Nat) (mapped : Bool) : Result (List UInt8) :=
  if mapped then readMapped file maxBytes else readBuffered file maxBytes

def headerOf (bytes : List UInt8) : List UInt8 :=
  header ++ (leBytes 8 bytes.length ++ leBytes 4 (crc32c bytes).toNat)

def frameOf (bytes : List UInt8) : List UInt8 := headerOf bytes ++ bytes

theorem length_headerOf (bytes : List UInt8) : (headerOf bytes).length = headerLen := by
  rw [headerOf, List.length_append, List.length_append, length_leBytes, length_leBytes]
  rfl

theorem length_frameOf (bytes : List UInt8) : (frameOf bytes).length = headerLen + bytes.length := by
  rw [frameOf, List.length_append, length_headerOf]

theorem encode_eq_ok {bytes frame : Vec UInt8} (h : encode bytes = .ok frame) :
    frame.items = frameOf bytes.items := by
  simp only [encode, bind_eq_ok, u64TryFrom_eq_ok] at h
  obtain ⟨length, hlength, magic, hmagic, sized, hsized, summed, hsummed, hframe⟩ := h
  rw [extendFromSlice_eq_ok hframe, extendFromSlice_eq_ok hsummed, extendFromSlice_eq_ok hsized,
    extendFromSlice_eq_ok hmagic, hlength, frameOf, headerOf]
  simp only [List.append_assoc, List.nil_append]

theorem encode_of_lt {bytes : Vec UInt8} (h : headerLen + bytes.items.length < 2 ^ 63) :
    ∃ frame, encode bytes = .ok frame := by
  rw [headerLen] at h
  have hlength : u64TryFrom bytes.items.length = .ok (UInt64.ofNat bytes.items.length) :=
    if_pos (bytes.fits.trans (by decide))
  obtain ⟨magic, hmagic, hm⟩ := @extendFromSlice_of_lt ⟨[], nil_fits⟩ header (by decide)
  obtain ⟨sized, hsized, hs⟩ := @extendFromSlice_of_lt magic
    (leBytes 8 (UInt64.ofNat bytes.items.length).toNat) (by rw [hm, length_leBytes]; decide)
  obtain ⟨summed, hsummed, hc⟩ := @extendFromSlice_of_lt sized (leBytes 4 (crc32c bytes.items).toNat)
    (by rw [hs, hm, List.length_append, length_leBytes, length_leBytes]; decide)
  have hlen : summed.items.length = 20 := by
    rw [hc, hs, hm, List.length_append, List.length_append, length_leBytes, length_leBytes]
    rfl
  obtain ⟨frame, hframe, -⟩ := @extendFromSlice_of_lt summed bytes.items (by rw [hlen]; exact h)
  exact ⟨frame, by simp only [encode, bind_eq_ok]; exact ⟨_, hlength, _, hmagic, _, hsized, _, hsummed, hframe⟩⟩

theorem validateHeader_headerOf {bytes : List UInt8} (h : bytes.length < 2 ^ 64) {maxBytes : Nat}
    (hmax : bytes.length ≤ maxBytes) :
    validateHeader (headerOf bytes) maxBytes = .ok (bytes.length, crc32c bytes) := by
  have hmagic : (headerOf bytes).take 8 = header := List.take_left' rfl
  have hlength : ((headerOf bytes).drop 8).take 8 = leBytes 8 bytes.length := by
    rw [headerOf, show List.drop 8 _ = _ from List.drop_left' rfl]
    exact List.take_left' (length_leBytes 8 _)
  have hcrc : ((headerOf bytes).drop 16).take 4 = leBytes 4 (crc32c bytes).toNat := by
    rw [headerOf, ← List.append_assoc, show List.drop 16 _ = _ from List.drop_left' (by
      rw [List.length_append, length_leBytes]; rfl)]
    exact List.take_of_length_le (length_leBytes 4 _).le
  have hvalue : leValue (leBytes 8 bytes.length) = bytes.length := leValue_leBytes h
  have hsum : leValue (leBytes 4 (crc32c bytes).toNat) = (crc32c bytes).toNat :=
    leValue_leBytes (crc32c bytes).toNat_lt
  simp only [validateHeader, hmagic, hlength, hcrc, hvalue, hsum, throwIf_of_not (not_not.mpr rfl),
    throwIf_of_not (Nat.not_lt.mpr hmax), ok_bind, UInt32.ofNat_toNat]

theorem take_frameOf (bytes : List UInt8) : (frameOf bytes).take headerLen = headerOf bytes :=
  List.take_left' (length_headerOf bytes)

theorem drop_frameOf (bytes : List UInt8) : (frameOf bytes).drop headerLen = bytes :=
  List.drop_left' (length_headerOf bytes)

/-- Either way of reading a file gives the payload that the frame in it was made of. -/
theorem read_frameOf {bytes : List UInt8} (h : bytes.length < 2 ^ 63) {maxBytes : Nat}
    (hmax : bytes.length ≤ maxBytes) (mapped : Bool) : read (frameOf bytes) maxBytes mapped = .ok bytes := by
  have hwide : bytes.length < 2 ^ 64 := h.trans (by decide)
  have hlong : ¬ headerLen + bytes.length < headerLen := Nat.not_lt.mpr (Nat.le_add_right _ _)
  have hsum : ¬ 2 ^ 64 ≤ headerLen + bytes.length := by
    rw [headerLen]
    omega
  cases mapped with
  | true =>
      simp only [read, if_true, readMapped, take_frameOf, drop_frameOf, validateHeader_headerOf hwide hmax,
        throwIf_of_not hlong, ok_bind, throwIf_of_not hsum, length_frameOf, ne_eq, not_true_eq_false, not_false_eq_true,
        throwIf_of_not]
  | false =>
      simp only [read, Bool.false_eq_true, if_false, readBuffered, take_frameOf, drop_frameOf, List.take_length,
        validateHeader_headerOf hwide hmax, throwIf_of_not hlong, ok_bind, throwIf_of_not (Nat.not_le.mpr h),
        length_frameOf, Nat.lt_irrefl, ne_eq, not_true_eq_false, or_self, not_false_eq_true, throwIf_of_not]

theorem validateHeader_eq_ok {bytes : List UInt8} (hlen : bytes.length = headerLen) {maxBytes length : Nat}
    {crc : UInt32} (h : validateHeader bytes maxBytes = .ok (length, crc)) :
    bytes = header ++ (leBytes 8 length ++ leBytes 4 crc.toNat) ∧ length ≤ maxBytes := by
  rw [validateHeader] at h
  obtain ⟨hmagic, h⟩ := unit_bind_eq_ok.mp h
  obtain ⟨hmax, h⟩ := unit_bind_eq_ok.mp h
  obtain ⟨rfl, rfl⟩ := Prod.mk.inj (Except.ok.inj h)
  have hmagic := not_not.mp (throwIf_eq_ok.mp hmagic)
  have hmax := not_lt.mp (throwIf_eq_ok.mp hmax)
  refine ⟨?_, hmax⟩
  rw [headerLen] at hlen
  have hfield : ((bytes.drop 8).take 8).length = 8 := by
    rw [List.length_take, List.length_drop]
    omega
  have hlast : ((bytes.drop 16).take 4).length = 4 := by
    rw [List.length_take, List.length_drop]
    omega
  have hlength := leBytes_leValue ((bytes.drop 8).take 8)
  have hcrc := leBytes_leValue ((bytes.drop 16).take 4)
  have hvalue := leValue_lt ((bytes.drop 16).take 4)
  rw [hfield] at hlength
  rw [hlast] at hcrc hvalue
  have hrest : (bytes.drop 16).take 4 = bytes.drop 16 := List.take_of_length_le (by rw [List.length_drop]; omega)
  rw [UInt32.toNat_ofNat_of_lt' hvalue, hlength, hcrc, hrest, show 16 = 8 + 8 from rfl, ← List.drop_drop,
    List.take_append_drop, ← hmagic, List.take_append_drop]

/-- Both ways to read a file check that it is the frame of what they return. -/
theorem read_eq_ok {file payload : List UInt8} {maxBytes : Nat} {mapped : Bool}
    (h : read file maxBytes mapped = .ok payload) : file = frameOf payload ∧ payload.length ≤ maxBytes := by
  have hframe {length : Nat} {crc : UInt32} (hlong : headerLen ≤ file.length)
      (hheader : validateHeader (file.take headerLen) maxBytes = .ok (length, crc))
      (hlength : file.length = headerLen + length) (hcrc : crc32c (file.drop headerLen) = crc) :
      file = frameOf (file.drop headerLen) ∧ (file.drop headerLen).length ≤ maxBytes := by
    have htake : (file.take headerLen).length = headerLen := by
      rw [List.length_take, Nat.min_eq_left hlong]
    obtain ⟨hitems, hmax⟩ := validateHeader_eq_ok htake hheader
    have hrest : (file.drop headerLen).length = length := by
      rw [List.length_drop]
      omega
    refine ⟨?_, hrest.trans_le hmax⟩
    nth_rewrite 1 [← List.take_append_drop headerLen file]
    rw [hitems, frameOf, headerOf, hrest, hcrc]
  cases mapped with
  | true =>
      rw [read, if_pos rfl, readMapped] at h
      obtain ⟨hlong, h⟩ := unit_bind_eq_ok.mp h
      obtain ⟨⟨length, crc⟩, hheader, h⟩ := bind_eq_ok.mp h
      dsimp only at h
      obtain ⟨-, h⟩ := unit_bind_eq_ok.mp h
      obtain ⟨hlength, h⟩ := unit_bind_eq_ok.mp h
      obtain ⟨hcrc, h⟩ := unit_bind_eq_ok.mp h
      rw [← Except.ok.inj h]
      exact hframe (not_lt.mp (throwIf_eq_ok.mp hlong)) hheader (not_not.mp (throwIf_eq_ok.mp hlength))
        (not_not.mp (throwIf_eq_ok.mp hcrc))
  | false =>
      rw [read, if_neg Bool.false_ne_true, readBuffered] at h
      obtain ⟨hlong, h⟩ := unit_bind_eq_ok.mp h
      obtain ⟨⟨length, crc⟩, hheader, h⟩ := bind_eq_ok.mp h
      dsimp only at h
      obtain ⟨-, h⟩ := unit_bind_eq_ok.mp h
      obtain ⟨-, h⟩ := unit_bind_eq_ok.mp h
      obtain ⟨hsame, h⟩ := unit_bind_eq_ok.mp h
      have hsame := throwIf_eq_ok.mp hsame
      rw [not_or, not_not, not_not] at hsame
      have hall : (file.drop headerLen).take length = file.drop headerLen :=
        List.take_of_length_le (by rw [List.length_drop]; omega)
      rw [hall] at hsame h
      rw [← Except.ok.inj h]
      exact hframe (not_lt.mp (throwIf_eq_ok.mp hlong)) hheader hsame.1 hsame.2

def announced (file : List UInt8) : Nat := leValue ((file.drop 8).take 8)

/-- A header within the limit, of a length that no vector has. -/
structure Unallocatable (file : List UInt8) (maxBytes : Nat) : Prop where
  whole : headerLen ≤ file.length
  magic : file.take 8 = header
  wide : 2 ^ 63 ≤ announced file
  limit : announced file ≤ maxBytes

theorem validateHeader_take (file : List UInt8) (maxBytes : Nat) : validateHeader (file.take headerLen) maxBytes = (do
    throwIf (file.take 8 ≠ header) (corrupt "unsupported snapshot header")
    throwIf (maxBytes < announced file) (corrupt "snapshot exceeds configured size limit")
    .ok (announced file, UInt32.ofNat (leValue ((file.drop 16).take 4)))) := by
  have hmagic : (file.take headerLen).take 8 = file.take 8 := by
    rw [List.take_take]
    rfl
  have hlength : ((file.take headerLen).drop 8).take 8 = (file.drop 8).take 8 := by
    rw [List.drop_take, List.take_take]
    rfl
  have hcrc : ((file.take headerLen).drop 16).take 4 = (file.drop 16).take 4 := by
    rw [List.drop_take, List.take_take]
    rfl
  rw [validateHeader, hmagic, hlength, hcrc]
  rfl

theorem safe_validateHeader (bytes : List UInt8) (maxBytes : Nat) : Safe (validateHeader bytes maxBytes) :=
  (safe_throwIf (by nofun)).bind fun _ _ => (safe_throwIf (by nofun)).bind fun _ _ => safe_ok _

theorem readBuffered_panics {file : List UInt8} {maxBytes : Nat} (h : Unallocatable file maxBytes) :
    readBuffered file maxBytes = .error .panicked := by
  rw [readBuffered, throwIf_of_not h.whole.not_gt, validateHeader_take, throwIf_of_not (not_not.mpr h.magic),
    throwIf_of_not h.limit.not_gt]
  simp only [ok_bind, throwIf, if_pos h.wide]
  rfl

theorem safe_readMapped (mapped : List UInt8) (maxBytes : Nat) : Safe (readMapped mapped maxBytes) :=
  (safe_throwIf (by nofun)).bind fun _ _ => (safe_validateHeader _ _).bind fun _ _ =>
    (safe_throwIf (by nofun)).bind fun _ _ => (safe_throwIf (by nofun)).bind fun _ _ =>
      (safe_throwIf (by nofun)).bind fun _ _ => safe_ok _

/-- The buffered way panics for such a header, and for nothing else. -/
theorem safe_readBuffered {file : List UInt8} {maxBytes : Nat} (h : ¬ Unallocatable file maxBytes) :
    Safe (readBuffered file maxBytes) := by
  refine (safe_throwIf (by nofun)).bind fun _ hlong => (safe_validateHeader _ _).bind fun accepted hheader => ?_
  obtain ⟨length, crc⟩ := accepted
  rw [validateHeader_take] at hheader
  obtain ⟨hmagic, hheader⟩ := unit_bind_eq_ok.mp hheader
  obtain ⟨hlimit, hheader⟩ := unit_bind_eq_ok.mp hheader
  obtain ⟨rfl, -⟩ := Prod.mk.inj (Except.ok.inj hheader)
  have hsmall : ¬ 2 ^ 63 ≤ announced file := fun hwide => h ⟨not_lt.mp (throwIf_eq_ok.mp hlong),
    not_not.mp (throwIf_eq_ok.mp hmagic), hwide, not_lt.mp (throwIf_eq_ok.mp hlimit)⟩
  dsimp only
  rw [throwIf_of_not hsmall, ok_bind]
  exact (safe_throwIf (by nofun)).bind fun _ _ => (safe_throwIf (by nofun)).bind fun _ _ => safe_ok _

theorem safe_read {file : List UInt8} {maxBytes : Nat} (h : ¬ Unallocatable file maxBytes) (mapped : Bool) :
    Safe (read file maxBytes mapped) := by
  cases mapped with
  | true => exact safe_readMapped file maxBytes
  | false => exact safe_readBuffered h

/-- A file that neither way of reading accepts: both of them return an error. -/
def Refused (file : Vec UInt8) (maxBytes : Nat) : Prop :=
  ∀ mapped, ∃ e, e ≠ .panicked ∧ read file.items maxBytes mapped = .error e

theorem refused_of_ne {file : Vec UInt8} {maxBytes : Nat} (halloc : ¬ Unallocatable file.items maxBytes)
    (h : ∀ payload, payload.length ≤ maxBytes → file.items ≠ frameOf payload) : Refused file maxBytes := by
  intro mapped
  cases hread : read file.items maxBytes mapped with
  | ok payload =>
      obtain ⟨hitems, hmax⟩ := read_eq_ok hread
      exact absurd hitems (h payload hmax)
  | error e =>
      refine ⟨e, ?_, rfl⟩
      rintro rfl
      exact safe_read halloc mapped hread

theorem frameOf_inj_prefixed {payload payload' : List UInt8} (hfits : payload.length < 2 ^ 64)
    (hfits' : payload'.length < 2 ^ 64) (h : frameOf payload <+: frameOf payload') :
    frameOf payload = frameOf payload' := by
  have hheader : headerOf payload = headerOf payload' := by
    have htake := (List.prefix_append (headerOf payload) payload).trans h
    rw [← take_frameOf payload', ← length_headerOf payload]
    exact List.prefix_iff_eq_take.mp htake
  have hlength : payload.length = payload'.length := by
    have hfields := congrArg (fun header => leValue ((header.drop 8).take 8)) hheader
    have hvalue (bytes : List UInt8) (hfits : bytes.length < 2 ^ 64) :
        leValue (((headerOf bytes).drop 8).take 8) = bytes.length := by
      rw [headerOf, show List.drop 8 _ = _ from List.drop_left' rfl, List.take_left' (length_leBytes 8 _)]
      exact leValue_leBytes hfits
    rwa [hvalue payload hfits, hvalue payload' hfits'] at hfields
  exact h.eq_of_length (by rw [length_frameOf, length_frameOf, hlength])

theorem encode_of_frameOf {file payload : Vec UInt8} (h : file.items = frameOf payload.items) :
    encode payload = .ok file := by
  have hfits := file.fits
  rw [h, length_frameOf] at hfits
  obtain ⟨frame, hframe⟩ := encode_of_lt hfits
  have hsame : frame = file := Vec.ext ((encode_eq_ok hframe).trans h.symm)
  rw [hframe, hsame]

/-- Both ways of reading accept the frames within the limit, and refuse everything else. -/
structure ReadExactly (file : Vec UInt8) (maxBytes : Nat) : Prop where
  accepts : ∀ mapped (payload : Vec UInt8), read file.items maxBytes mapped = .ok payload.items ↔
    encode payload = .ok file ∧ payload.items.length ≤ maxBytes
  agree : (∃ payload : Vec UInt8, ∀ mapped, read file.items maxBytes mapped = .ok payload.items) ∨ Refused file maxBytes
  refuses : ∀ payload frame : Vec UInt8, encode payload = .ok frame →
    (file ≠ frame ∧ (file.items <+: frame.items ∨ frame.items <+: file.items ∨
      file.items.drop headerLen = payload.items) ∨ file = frame ∧ maxBytes < payload.items.length) →
    Refused file maxBytes

theorem read_accepts (file : Vec UInt8) (maxBytes : Nat) (mapped : Bool) (payload : Vec UInt8) :
    read file.items maxBytes mapped = .ok payload.items ↔
      encode payload = .ok file ∧ payload.items.length ≤ maxBytes := by
  constructor
  · intro h
    obtain ⟨hitems, hmax⟩ := read_eq_ok h
    exact ⟨encode_of_frameOf hitems, hmax⟩
  · rintro ⟨hencode, hmax⟩
    rw [encode_eq_ok hencode]
    exact read_frameOf payload.fits hmax mapped

theorem ne_frameOf {file payload frame : Vec UInt8} {maxBytes : Nat} (hframe : encode payload = .ok frame)
    (hcase : file ≠ frame ∧ (file.items <+: frame.items ∨ frame.items <+: file.items ∨
      file.items.drop headerLen = payload.items) ∨ file = frame ∧ maxBytes < payload.items.length)
    {other : List UInt8} (hmax : other.length ≤ maxBytes) : file.items ≠ frameOf other := by
  intro hother
  have hitems := encode_eq_ok hframe
  have hfits := file.fits
  rw [hother, length_frameOf] at hfits
  have hwide : other.length < 2 ^ 64 := by omega
  have hwide' : payload.items.length < 2 ^ 64 := payload.fits.trans (by decide)
  obtain ⟨hne, hcase⟩ | ⟨rfl, hlong⟩ := hcase
  · apply hne
    apply Vec.ext
    rw [hother, hitems] at hcase ⊢
    obtain hstart | hstart | hsame := hcase
    · exact frameOf_inj_prefixed hwide hwide' hstart
    · exact (frameOf_inj_prefixed hwide' hwide hstart).symm
    · rw [drop_frameOf] at hsame
      rw [hsame]
  · rw [hother] at hitems
    have hsame : other = payload.items := by rw [← drop_frameOf other, hitems, drop_frameOf]
    rw [hsame] at hmax
    exact absurd hlong (not_lt.mpr hmax)

theorem not_readExactly {file : Vec UInt8} {maxBytes : Nat}
    (hpanics : read file.items maxBytes false = .error .panicked) : ¬ ReadExactly file maxBytes := by
  intro h
  obtain ⟨payload, hread⟩ | hrefused := h.agree
  · have hok := hread false
    rw [hpanics] at hok
    cases hok
  · obtain ⟨e, hne, he⟩ := hrefused false
    rw [hpanics] at he
    exact hne (Except.error.inj he).symm

/-- The buffered way panics where it is to allocate what no vector holds. The mapped one, which allocates
nothing, returns an error there. -/
theorem read_exact_iff (file : Vec UInt8) (maxBytes : Nat) :
    ReadExactly file maxBytes ↔ ¬ Unallocatable file.items maxBytes := by
  constructor
  · exact fun h halloc => not_readExactly (readBuffered_panics halloc) h
  · intro halloc
    refine ⟨read_accepts file maxBytes, ?_, fun payload frame hframe hcase =>
      refused_of_ne halloc fun other hmax => ne_frameOf hframe hcase hmax⟩
    by_cases hpayload : ∃ payload : Vec UInt8, encode payload = .ok file ∧ payload.items.length ≤ maxBytes
    · obtain ⟨payload, hencode⟩ := hpayload
      exact .inl ⟨payload, fun mapped => (read_accepts file maxBytes mapped payload).mpr hencode⟩
    · refine .inr (refused_of_ne halloc fun payload hmax hitems => hpayload ?_)
      have hfits := file.fits
      rw [hitems, length_frameOf] at hfits
      exact ⟨⟨payload, (Nat.le_add_left _ _).trans_lt hfits⟩, encode_of_frameOf hitems, hmax⟩

/-- A header alone, for a payload of `2 ^ 63` bytes. -/
def hugeFile : Vec UInt8 := ⟨header ++ ([0, 0, 0, 0, 0, 0, 0, 0x80] ++ [0, 0, 0, 0]), by decide⟩

theorem read_exact_huge : headerLen + 2 ^ 63 < 2 ^ 64 ∧
    read hugeFile.items (2 ^ 63) false = .error .panicked ∧
    read hugeFile.items (2 ^ 63) true = .error (corrupt "snapshot length mismatch") ∧
    ¬ ReadExactly hugeFile (2 ^ 63) := by
  have halloc : Unallocatable hugeFile.items (2 ^ 63) := ⟨by decide, rfl, by decide, by decide⟩
  have hpanics : read hugeFile.items (2 ^ 63) false = .error .panicked := readBuffered_panics halloc
  exact ⟨by decide, hpanics, by rfl, not_readExactly hpanics⟩

end WeavatrixMemory.Snapshot.Frame
