import WeavatrixMemory.Identity
import WeavatrixMemory.Library.Format
import WeavatrixMemory.Library.Words

namespace WeavatrixMemory.Snapshot.Io

open Error Identity Format Words

abbrev Reader := Cursor UInt8

abbrev Read (α : Type) := Update Reader α

abbrev Write := Update (List UInt8) Unit

def codec (message : String) : MemoryError := .codec message

def writeBytes (bytes : List UInt8) : Write := modify (· ++ bytes)

/-- The loop of `Writer::varint`: after nine rounds 63 of the 64 bits are out. -/
def writeVarintFrom : Nat → UInt64 → Write
  | 0, value => writeBytes [value.toUInt8]
  | rounds + 1, value =>
      if 0x80 ≤ value then do
        writeBytes [value.toUInt8 &&& 0x7f ||| 0x80]
        writeVarintFrom rounds (value >>> 7)
      else writeBytes [value.toUInt8]

def writeVarint (value : UInt64) : Write := writeVarintFrom 9 value

def writeUsize (value : Nat) : Write := do
  let value ← u64TryFrom value
  writeVarint value

def writeSigned (value : Int64) : Write := writeVarint ((value <<< 1) ^^^ (value >>> 63)).toUInt64

def writeBool (value : Bool) : Write := writeBytes [if value then 1 else 0]

def writeOptional {α : Type} (write : α → Write) : Option α → Write
  | none => writeBool false
  | some value => do
      writeBool true
      write value

def writeOptionalU64 (value : Option UInt64) : Write := writeOptional writeVarint value

def writeOptionalSigned (value : Option Int64) : Write := writeOptional writeSigned value

def writeString (value : Text) : Write := do
  writeUsize value.str.utf8ByteSize
  writeBytes value.bytes

def writeOptionalString (value : Option Text) : Write := writeOptional writeString value

def readByte : Read UInt8 := do
  let reader ← get
  match reader.items[reader.position]? with
  | some byte => do
      set { reader with position := reader.position + 1 }
      pure byte
  | none => throw (codec "unexpected end of compact snapshot")

/-- The loop of `Reader::varint` over the shifts `0, 7, .. 63`, with the number of rounds left. -/
def readVarintFrom : Nat → Nat → UInt64 → Read UInt64
  | 0, _, _ => throw (codec "unterminated varint")
  | rounds + 1, shift, value => do
      let byte ← readByte
      throwIf (shift = 63 ∧ 1 < byte) (codec "varint overflows u64")
      let value := value ||| ((byte &&& 0x7f).toUInt64 <<< UInt64.ofNat shift)
      if byte &&& 0x80 = 0 then pure value else readVarintFrom rounds (shift + 7) value

def readVarint : Read UInt64 := readVarintFrom 10 0 0

/-- On a 64-bit platform `usize::try_from` always succeeds. -/
def readUsize : Read Nat := do
  let value ← readVarint
  pure value.toNat

def remaining (reader : Reader) : Nat := reader.items.length - reader.position

def readCount : Read Nat := do
  let count ← readUsize
  let reader ← get
  throwIf (remaining reader < count) (codec "item count exceeds remaining snapshot bytes")
  pure count

def readSigned : Read Int64 := do
  let value ← readVarint
  pure ((value >>> 1).toInt64 ^^^ -(value &&& 1).toInt64)

def readBool : Read Bool := do
  let byte ← readByte
  match byte with
  | 0 => pure false
  | 1 => pure true
  | _ => throw (codec "invalid boolean tag")

def readOptional {α : Type} (read : Read α) : Read (Option α) := do
  let present ← readBool
  if present then do
    let value ← read
    pure (some value)
  else pure none

def readOptionalU64 : Read (Option UInt64) := readOptional readVarint

def readOptionalSigned : Read (Option Int64) := readOptional readSigned

/-- `str::from_utf8` and `to_owned`; a `String` beyond its greatest size cannot be allocated. -/
def decodeUtf8 (bytes : List UInt8) : Result Text :=
  match String.fromUTF8? ⟨bytes.toArray⟩ with
  | some str => if h : str.utf8ByteSize < 2 ^ 63 then .ok ⟨str, h⟩ else .error .panicked
  | none => .error (codec "snapshot string is not UTF-8")

def readString : Read Text := do
  let length ← readUsize
  let reader ← get
  let end_ ← usizeChecked (reader.position + length)
  if end_ ≤ reader.items.length then do
    set { reader with position := end_ }
    decodeUtf8 ((reader.items.drop reader.position).take length)
  else throw (codec "string extends past snapshot")

def readOptionalString : Read (Option Text) := readOptional readString

/-- The size of a byte slice is at most `isize::MAX`. -/
def limit : Nat := 2 ^ 63

variable {α β : Type}

theorem writes_writeBytes (bytes : List UInt8) : Writes (writeBytes bytes) bytes := fun _ => rfl

theorem reads_readByte (byte : UInt8) : Reads limit readByte [byte] byte := by
  intro front rest _
  have hget : (front ++ [byte] ++ rest)[front.length]? = some byte := by
    rw [List.append_assoc, List.getElem?_append_right le_rfl, Nat.sub_self]
    rfl
  unfold readByte
  rw [bind_apply, get_apply]
  simp only [hget]
  rfl

theorem codes_byte (byte : UInt8) : Codes limit 1 (writeBytes [byte]) readByte byte :=
  ⟨[byte], le_rfl, writes_writeBytes [byte], reads_readByte byte⟩

theorem lift_apply (x : Result α) (f : α → Read β) {a : α} (h : x = .ok a) (c : Reader) :
    ((liftM x : Read α) >>= f) c = f a c := by
  rw [h]
  rfl

theorem toNat_toUInt8_of_lt {v : UInt64} (h : v.toNat < 2 ^ 8) : v.toUInt8.toNat = v.toNat := by
  rw [UInt64.toNat_toUInt8]
  exact Nat.mod_eq_of_lt h

theorem readVarintFrom_last {rounds shift : Nat} {acc : UInt64} {byte : UInt8}
    (hfits : ¬ (shift = 63 ∧ 1 < byte)) (hhigh : byte.toNat < 2 ^ 7) :
    Codes limit 1 (writeBytes [byte]) (readVarintFrom (rounds + 1) shift acc)
      (acc ||| ((byte &&& 0x7f).toUInt64 <<< UInt64.ofNat shift)) := by
  refine (codes_byte byte).finish fun c => ?_
  rw [lift_apply _ _ (throwIf_of_not hfits _) c]
  simp only [if_pos (high_bit_clear.mpr hhigh)]
  rfl

theorem readVarintFrom_more {rounds shift : Nat} {acc : UInt64} {byte : UInt8} {write : Write} {value : UInt64}
    (hfits : ¬ (shift = 63 ∧ 1 < byte)) (hhigh : ¬ byte.toNat < 2 ^ 7)
    (h : Codes limit 1 write (readVarintFrom rounds (shift + 7)
      (acc ||| ((byte &&& 0x7f).toUInt64 <<< UInt64.ofNat shift))) value) :
    Codes limit 1 (writeBytes [byte] >>= fun _ => write) (readVarintFrom (rounds + 1) shift acc) value := by
  refine ((codes_byte byte).bind ?_).mono (by decide : 1 ≤ 1 + 1)
  have hnext : (do
      throwIf (shift = 63 ∧ 1 < byte) (codec "varint overflows u64")
      let value := acc ||| ((byte &&& 0x7f).toUInt64 <<< UInt64.ofNat shift)
      if byte &&& 0x80 = 0 then pure value else readVarintFrom rounds (shift + 7) value : Read UInt64) =
      readVarintFrom rounds (shift + 7) (acc ||| ((byte &&& 0x7f).toUInt64 <<< UInt64.ofNat shift)) := by
    rw [throwIf_of_not hfits, if_neg fun hc => hhigh (high_bit_clear.mp hc)]
    rfl
  rw [hnext]
  exact h

theorem codes_varint_small {v acc : UInt64} {rounds shift : Nat} (hs : shift < 64) (hsmall : v.toNat < 2 ^ 7)
    (hfits : shift = 63 → v.toNat ≤ 1) (hacc : acc.toNat < 2 ^ shift)
    (hword : v.toNat * 2 ^ shift < 2 ^ 64) :
    Codes limit 1 (writeBytes [v.toUInt8]) (readVarintFrom (rounds + 1) shift acc)
      (UInt64.ofNat (acc.toNat + v.toNat * 2 ^ shift)) := by
  have hbyte : v.toUInt8.toNat = v.toNat := toNat_toUInt8_of_lt (hsmall.trans (by decide))
  have hlow : (v.toUInt8 &&& 0x7f).toNat = v.toNat := by
    rw [toNat_low_seven, hbyte, Nat.mod_eq_of_lt hsmall]
  have hlast : ¬ (shift = 63 ∧ 1 < v.toUInt8) := by
    rintro ⟨hs, hb⟩
    rw [UInt8.lt_iff_toNat_lt, hbyte] at hb
    exact absurd hb (Nat.not_lt.mpr (hfits hs))
  have hvalue : acc ||| ((v.toUInt8 &&& 0x7f).toUInt64 <<< UInt64.ofNat shift) =
      UInt64.ofNat (acc.toNat + v.toNat * 2 ^ shift) := by
    have hor := toNat_or_shiftLeft hacc hs (by rwa [hlow])
    rw [hlow] at hor
    rw [← hor, UInt64.ofNat_toNat]
  rw [← hvalue]
  exact readVarintFrom_last hlast (by rwa [hbyte])

theorem codes_varintFrom (rounds : Nat) (hr : rounds ≤ 9) {v acc : UInt64}
    (hv : v.toNat < 2 ^ (7 * rounds + 1)) (hacc : acc.toNat < 2 ^ (63 - 7 * rounds)) :
    Codes limit 1 (writeVarintFrom rounds v) (readVarintFrom (rounds + 1) (63 - 7 * rounds) acc)
      (UInt64.ofNat (acc.toNat + v.toNat * 2 ^ (63 - 7 * rounds))) := by
  have hword : v.toNat * 2 ^ (63 - 7 * rounds) < 2 ^ 64 := by
    have hlt := (Nat.mul_lt_mul_right (Nat.two_pow_pos (63 - 7 * rounds))).mpr hv
    rwa [← Nat.pow_add, show 7 * rounds + 1 + (63 - 7 * rounds) = 64 by omega] at hlt
  have hfits : 63 - 7 * rounds = 63 → v.toNat ≤ 1 := by
    intro hs
    obtain rfl : rounds = 0 := by omega
    exact Nat.le_of_lt_succ hv
  induction rounds generalizing v acc with
  | zero => exact codes_varint_small (by omega) (hv.trans (by decide)) hfits hacc hword
  | succ rounds ih =>
      obtain ⟨shift, hshift⟩ : ∃ shift, 63 - 7 * (rounds + 1) = shift := ⟨_, rfl⟩
      rw [hshift] at hacc hword hfits ⊢
      by_cases hlarge : 0x80 ≤ v
      · have hbyte : (v.toUInt8 &&& 0x7f ||| 0x80).toNat = v.toNat % 2 ^ 7 + 2 ^ 7 := by
          rw [toNat_set_high, UInt64.toNat_toUInt8, Nat.mod_mod_of_dvd _ (by decide)]
        have hlow : ((v.toUInt8 &&& 0x7f ||| 0x80) &&& 0x7f).toNat = v.toNat % 2 ^ 7 := by
          rw [toNat_low_seven, hbyte, Nat.add_mod_right, Nat.mod_mod]
        have hrest : (v >>> 7).toNat = v.toNat / 2 ^ 7 := by
          rw [UInt64.toNat_shiftRight]
          exact Nat.shiftRight_eq_div_pow _ 7
        have hsplit := low_seven_add_rest v.toNat shift
        have hbound : v.toNat % 2 ^ 7 * 2 ^ shift ≤ 127 * 2 ^ shift :=
          Nat.mul_le_mul_right _ (Nat.le_of_lt_succ (Nat.mod_lt _ (by decide)))
        have hor := @toNat_or_shiftLeft acc ((v.toUInt8 &&& 0x7f ||| 0x80) &&& 0x7f) shift hacc (by omega)
          (by rw [hlow]; omega)
        rw [hlow] at hor
        have hnext : 63 - 7 * rounds = shift + 7 := by omega
        have hpow : 2 ^ (shift + 7) = 128 * 2 ^ shift := by rw [Nat.pow_add, Nat.mul_comm]
        have hih := @ih (by omega) (v >>> 7) (acc ||| (((v.toUInt8 &&& 0x7f ||| 0x80) &&& 0x7f).toUInt64 <<<
          UInt64.ofNat shift))
        rw [hnext, hrest, hor, Nat.add_assoc, hsplit] at hih
        rw [writeVarintFrom, if_pos hlarge]
        refine readVarintFrom_more ?_ ?_ (hih ?_ ?_ ?_ ?_)
        · rintro ⟨hs, -⟩
          omega
        · omega
        · rw [Nat.div_lt_iff_lt_mul (by decide), ← Nat.pow_add]
          exact hv
        · omega
        · omega
        · intro hs
          obtain rfl : rounds = 0 := by omega
          have hv : v.toNat < 2 ^ 8 := hv
          omega
      · have hsmall : v.toNat < 2 ^ 7 := by
          rw [UInt64.le_iff_toNat_le, Nat.not_le] at hlarge
          exact hlarge
        rw [writeVarintFrom, if_neg hlarge]
        exact codes_varint_small (by omega) hsmall hfits hacc hword

theorem codes_varint (v : UInt64) : Codes limit 1 (writeVarint v) readVarint v := by
  have h := @codes_varintFrom 9 le_rfl v 0 v.toNat_lt (by decide)
  simpa [writeVarint, readVarint] using h

theorem codes_usize {n : Nat} (hn : n < 2 ^ 64) : Codes limit 1 (writeUsize n) readUsize n := by
  have hto : u64TryFrom n = .ok (UInt64.ofNat n) := if_pos hn
  unfold writeUsize
  rw [hto]
  refine (codes_varint (UInt64.ofNat n)).finish fun c => ?_
  rw [UInt64.toNat_ofNat_of_lt' hn]
  rfl

theorem codes_signed (v : Int64) : Codes limit 1 (writeSigned v) readSigned v := by
  refine (codes_varint _).finish fun c => ?_
  suffices h : ((((v <<< 1) ^^^ (v >>> 63)).toUInt64 >>> 1).toInt64 ^^^
      -(((v <<< 1) ^^^ (v >>> 63)).toUInt64 &&& 1).toInt64) = v from congrArg (EStateM.Result.ok · c) h
  apply Int64.toBitVec_inj.mp
  simpa using zigzag_inverse v.toBitVec

theorem codes_bool (v : Bool) : Codes limit 1 (writeBool v) readBool v := by
  refine (codes_byte _).finish fun c => ?_
  cases v <;> rfl

theorem codes_optional {write : α → Write} {read : Read α} {v : Option α}
    (h : ∀ a, v = some a → Codes limit 1 (write a) read a) :
    Codes limit 1 (writeOptional write v) (readOptional read) v := by
  cases v with
  | none => exact (codes_bool false).finish fun _ => rfl
  | some a =>
      refine ((codes_bool true).bind ?_).mono (by decide : 1 ≤ 1 + 1)
      exact (h a rfl).finish fun _ => rfl

theorem length_bytes (t : Text) : t.bytes.length = t.str.utf8ByteSize := by
  rw [← String.size_toByteArray]
  rfl

theorem decodeUtf8_bytes (t : Text) : decodeUtf8 t.bytes = .ok t := by
  have hbytes : (⟨t.bytes.toArray⟩ : ByteArray) = t.str.toByteArray := by simp [Text.bytes]
  have hsome : String.fromUTF8? t.str.toByteArray = some t.str := by
    simp [String.fromUTF8?, String.isValidUTF8, String.fromUTF8]
  simp only [decodeUtf8, hbytes, hsome, dif_pos t.fits]

theorem decodeUtf8_eq_ok {bytes : List UInt8} {t : Text} (h : decodeUtf8 bytes = .ok t) : t.bytes = bytes := by
  rw [decodeUtf8] at h
  split at h
  next str hstr =>
    split at h
    next hfits =>
      rw [String.fromUTF8?] at hstr
      split at hstr
      next hvalid =>
        have hstring : str.toByteArray = ⟨bytes.toArray⟩ := by
          rw [← Option.some.inj hstr]
          simp [String.fromUTF8]
        rw [← Except.ok.inj h, Text.bytes, hstring]
      next => cases hstr
    next => cases h
  next => cases h

theorem bytes_inj {t t' : Text} (h : t.bytes = t'.bytes) : t = t' := by
  have hdecode := decodeUtf8_bytes t
  rw [h, decodeUtf8_bytes] at hdecode
  exact (Except.ok.inj hdecode).symm

theorem codes_string (t : Text) : Codes limit 1 (writeString t) readString t := by
  have hlength := length_bytes t
  obtain ⟨enc, henc, hw, hr⟩ := codes_usize (show t.str.utf8ByteSize < 2 ^ 64 from t.fits.trans (by decide))
  refine ⟨enc ++ t.bytes, ?_, hw.bind (writes_writeBytes _), fun front rest hlt => ?_⟩
  · rw [List.length_append]
    omega
  · rw [List.length_append] at hlt
    have hitems : front ++ (enc ++ t.bytes) ++ rest = front ++ enc ++ (t.bytes ++ rest) := by
      simp only [List.append_assoc]
    have hread := hr front (t.bytes ++ rest) (by rw [List.length_append]; omega)
    have hend : usizeChecked (front.length + enc.length + t.str.utf8ByteSize) =
        .ok (front.length + enc.length + t.str.utf8ByteSize) := by
      refine if_pos ?_
      unfold limit at hlt
      omega
    have hslice : ((front ++ enc ++ (t.bytes ++ rest)).drop (front.length + enc.length)).take
        t.str.utf8ByteSize = t.bytes := by
      rw [← List.length_append, List.drop_left, ← hlength, List.take_left]
    unfold readString
    rw [hitems, bind_of_ok hread, bind_apply, get_apply]
    simp only
    rw [hend, lift_apply _ _ rfl, if_pos (by simp only [List.length_append]; omega), bind_apply, set_apply]
    simp only [hslice, decodeUtf8_bytes, List.length_append, hlength, Nat.add_assoc]
    rfl

theorem codes_optionalString (t : Option Text) :
    Codes limit 1 (writeOptionalString t) readOptionalString t :=
  codes_optional fun a _ => codes_string a

theorem codes_counted {n size : Nat} {write : Write} {next : Nat → Read β} {b : β} (hn : n < 2 ^ 64)
    (h : Codes limit size write (next n) b) (hsize : n ≤ size) :
    Codes limit 1 (writeUsize n >>= fun _ => write) (readCount >>= next) b := by
  obtain ⟨enc, henc, hw, hr⟩ := codes_usize hn
  obtain ⟨enc', henc', hw', hr'⟩ := h
  refine ⟨enc ++ enc', ?_, hw.bind hw', fun front rest hlt => ?_⟩
  · rw [List.length_append]
    omega
  · rw [List.length_append] at hlt
    have hitems : front ++ (enc ++ enc') ++ rest = front ++ enc ++ (enc' ++ rest) := by
      simp only [List.append_assoc]
    have hread := hr front (enc' ++ rest) (by rw [List.length_append]; omega)
    have hnext := hr' (front ++ enc) rest (by rw [List.length_append]; omega)
    have hcount : readCount ⟨front ++ enc ++ (enc' ++ rest), front.length⟩ =
        .ok n ⟨front ++ enc ++ (enc' ++ rest), front.length + enc.length⟩ := by
      unfold readCount
      rw [bind_of_ok hread, bind_apply, get_apply]
      simp only
      rw [lift_apply _ _ (throwIf_of_not ?_ _)]
      · rfl
      · simp only [remaining, List.length_append]
        omega
    rw [hitems, bind_of_ok hcount, ← List.length_append, ← List.append_assoc (front ++ enc), hnext]
    simp only [List.length_append, Nat.add_assoc]

end WeavatrixMemory.Snapshot.Io
