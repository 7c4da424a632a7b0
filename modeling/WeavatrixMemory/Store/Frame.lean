import WeavatrixMemory.Domain
import WeavatrixMemory.Library.Blocks
import WeavatrixMemory.Library.Words

namespace WeavatrixMemory.Store.Frame

open Error Identity Domain Words Blocks List

/-- An error value, which a caller gets to see. -/
def Returned (e : MemoryError) : Prop := e ≠ .panicked ∧ e ≠ .stopped

/-- The serialization of the caller. Its calls return. -/
structure Codec (T : Type) where
  encode : T → Result (Vec UInt8)
  decode : List UInt8 → Result T
  encode_returns : ∀ {value e}, encode value = .error e → Returned e
  decode_returns : ∀ {bytes e}, decode bytes = .error e → Returned e

def Codec.Inverts {T : Type} (codec : Codec T) : Prop :=
  ∀ value bytes, codec.encode value = .ok bytes → codec.decode bytes.items = .ok value

variable {E : Type}

def fileHeader : List UInt8 := [0x57, 0x4d, 0x45, 0x4d, 0x4c, 0x4f, 0x47, 0x31]

def batchMagic : List UInt8 := [0x42, 0x41, 0x54, 0x31]

def batchHeaderLen : Nat := 16

def corrupt (offset : UInt64) (reason : String) : MemoryError := .corruptLog offset reason

/-- An entry of the table, after eight rounds of the bitwise algorithm. -/
def crc32cTable (index : UInt8) : UInt32 :=
  Nat.iterate (fun crc => (crc >>> 1) ^^^ (0x82f63b78 &&& (0 - (crc &&& 1)))) 8 index.toUInt32

def crc32c (bytes : List UInt8) : UInt32 :=
  ~~~ bytes.foldl (fun crc byte => (crc >>> 8) ^^^ crc32cTable (crc.toUInt8 ^^^ byte)) (~~~ 0)

example : crc32c [0x31, 0x32, 0x33, 0x34, 0x35, 0x36, 0x37, 0x38, 0x39] = 0xe3069283 := by decide +kernel

/-- `Vec::extend_from_slice`, which panics beyond the greatest size of a vector. -/
def extendFromSlice (out : Vec UInt8) (bytes : List UInt8) : Result (Vec UInt8) :=
  if h : (out.items ++ bytes).length < 2 ^ 63 then .ok ⟨out.items ++ bytes, h⟩ else .error .panicked

def encodeEvents (codec : Codec (StoredEvent E)) : List (StoredEvent E) → Vec UInt8 → Result (Vec UInt8)
  | [], payload => .ok payload
  | event :: rest, payload => do
      let encoded ← codec.encode event
      let length ← u64TryFrom encoded.items.length
      let payload ← extendFromSlice payload (leBytes 8 length.toNat)
      let payload ← extendFromSlice payload encoded.items
      encodeEvents codec rest payload

def u32TryFrom (n : Nat) : Result UInt32 :=
  if n < 2 ^ 32 then .ok (UInt32.ofNat n) else .error .capacityOverflow

def encodeBatch (events : List (StoredEvent E)) (codec : Codec (StoredEvent E)) (maxFrameBytes : Nat) :
    Result (Vec UInt8) := do
  let count ← u32TryFrom events.length
  let payload ← extendFromSlice ⟨[], nil_fits⟩ (leBytes 4 count.toNat)
  let payload ← encodeEvents codec events payload
  throwIf (maxFrameBytes < payload.items.length)
    (.invalidValue "event_batch" "encoded batch exceeds max_frame_bytes")
  let length ← u64TryFrom payload.items.length
  let frame ← extendFromSlice ⟨[], nil_fits⟩ batchMagic
  let frame ← extendFromSlice frame (leBytes 8 length.toNat)
  let frame ← extendFromSlice frame (leBytes 4 (crc32c payload.items).toNat)
  extendFromSlice frame payload.items

/-- `read_u32` and `read_u64`: the value of the next bytes, and the cursor behind them. -/
def readLe (size : Nat) (bytes : List UInt8) (cursor : Nat) : Option (Nat × Nat) :=
  if cursor + size ≤ bytes.length then some (leValue ((bytes.drop cursor).take size), cursor + size) else none

def orCorrupt {α : Type} (offset : UInt64) (reason : String) : Option α → Result α
  | some a => .ok a
  | none => .error (corrupt offset reason)

/-- The loop over the events of a payload, which returns them with the last cursor. -/
def decodeEvents (payload : List UInt8) (codec : Codec (StoredEvent E)) (offset : UInt64) :
    Nat → Nat → Result (List (StoredEvent E) × Nat)
  | 0, cursor => .ok ([], cursor)
  | count + 1, cursor => do
      let (length, cursor) ← orCorrupt offset "invalid event length" (readLe 8 payload cursor)
      throwIf (payload.length < cursor + length) (corrupt offset "truncated event payload")
      let event ← codec.decode ((payload.drop cursor).take length)
      let (events, cursor) ← decodeEvents payload codec offset count (cursor + length)
      .ok (event :: events, cursor)

def decodePayload (payload : List UInt8) (codec : Codec (StoredEvent E)) (offset : UInt64) :
    Result (List (StoredEvent E)) := do
  let (count, cursor) ← orCorrupt offset "missing event count" (readLe 4 payload 0)
  let (events, cursor) ← decodeEvents payload codec offset count cursor
  throwIf (cursor ≠ payload.length) (corrupt offset "trailing bytes in batch")
  .ok events

theorem extendFromSlice_eq_ok {out result : Vec UInt8} {bytes : List UInt8}
    (h : extendFromSlice out bytes = .ok result) : result.items = out.items ++ bytes := by
  rw [extendFromSlice] at h
  split at h
  · rw [← Except.ok.inj h]
  · cases h

theorem extendFromSlice_of_lt {out : Vec UInt8} {bytes : List UInt8}
    (h : out.items.length + bytes.length < 2 ^ 63) : ∃ result, extendFromSlice out bytes = .ok result ∧
      result.items = out.items ++ bytes := by
  have hlt : (out.items ++ bytes).length < 2 ^ 63 := by rwa [List.length_append]
  exact ⟨_, dif_pos hlt, rfl⟩

theorem u32TryFrom_eq_ok {n : Nat} {w : UInt32} (h : u32TryFrom n = .ok w) : w.toNat = n := by
  rw [u32TryFrom] at h
  split at h
  · rename_i hn
    rw [← Except.ok.inj h]
    exact UInt32.toNat_ofNat_of_lt' hn
  · cases h

theorem readLe_eq_some {size : Nat} {bytes : List UInt8} {cursor : Nat} {r : Nat × Nat} :
    readLe size bytes cursor = some r ↔ cursor + size ≤ bytes.length ∧
      r = (leValue ((bytes.drop cursor).take size), cursor + size) := by
  rw [readLe]
  split
  · rename_i h
    rw [Option.some.injEq, and_iff_right h, eq_comm]
  · rename_i h
    simp [h]

theorem orCorrupt_eq_ok {α : Type} {offset : UInt64} {reason : String} {x : Option α} {a : α} :
    orCorrupt offset reason x = .ok a ↔ x = some a := by
  cases x <;> simp [orCorrupt]

theorem orCorrupt_eq_error {α : Type} {offset : UInt64} {reason : String} {x : Option α} {e : MemoryError}
    (h : orCorrupt offset reason x = .error e) : e = corrupt offset reason := by
  cases x with
  | none => exact (Except.error.inj h).symm
  | some a => cases h

theorem returned_corrupt (offset : UInt64) (reason : String) : Returned (corrupt offset reason) :=
  ⟨by simp [corrupt], by simp [corrupt]⟩

def entry (encoded : Vec UInt8) : List UInt8 := leBytes 8 encoded.items.length ++ encoded.items

def payloadOf (encoded : List (Vec UInt8)) : List UInt8 :=
  leBytes 4 encoded.length ++ (encoded.map entry).flatten

def batchHeader (length : Nat) (crc : UInt32) : List UInt8 :=
  batchMagic ++ (leBytes 8 length ++ leBytes 4 crc.toNat)

def frameOf (payload : List UInt8) : List UInt8 := batchHeader payload.length (crc32c payload) ++ payload

@[simp] theorem length_batchHeader (length : Nat) (crc : UInt32) :
    (batchHeader length crc).length = batchHeaderLen := by
  rw [batchHeader, List.length_append, List.length_append, length_leBytes, length_leBytes]
  rfl

theorem length_entry (encoded : Vec UInt8) : (entry encoded).length = 8 + encoded.items.length := by
  rw [entry, List.length_append, length_leBytes]

abbrev Encodes (codec : Codec (StoredEvent E)) : List (StoredEvent E) → List (Vec UInt8) → Prop :=
  Forall₂ fun event bytes => codec.encode event = .ok bytes

theorem encodeEvents_eq_ok {codec : Codec (StoredEvent E)} (events : List (StoredEvent E))
    {payload result : Vec UInt8} (h : encodeEvents codec events payload = .ok result) :
    ∃ encoded, Encodes codec events encoded ∧ result.items = payload.items ++ (encoded.map entry).flatten := by
  induction events generalizing payload with
  | nil =>
      obtain rfl := Except.ok.inj h
      exact ⟨[], .nil, (List.append_nil _).symm⟩
  | cons event rest ih =>
      simp only [encodeEvents, bind_eq_ok, u64TryFrom_eq_ok] at h
      obtain ⟨bytes, hbytes, length, hlength, first, hfirst, second, hsecond, hrest⟩ := h
      obtain ⟨encoded, hencoded, hresult⟩ := ih hrest
      refine ⟨bytes :: encoded, .cons hbytes hencoded, ?_⟩
      rw [hresult, extendFromSlice_eq_ok hsecond, extendFromSlice_eq_ok hfirst, hlength, List.map_cons,
        List.flatten_cons, entry]
      simp only [List.append_assoc]

theorem encodeBatch_eq_ok {events : List (StoredEvent E)} {codec : Codec (StoredEvent E)}
    {maxFrameBytes : Nat} {frame : Vec UInt8} (h : encodeBatch events codec maxFrameBytes = .ok frame) :
    ∃ encoded, Encodes codec events encoded ∧ encoded.length < 2 ^ 32 ∧
      (payloadOf encoded).length ≤ maxFrameBytes ∧ frame.items = frameOf (payloadOf encoded) := by
  simp only [encodeBatch, bind_eq_ok, u64TryFrom_eq_ok, throwIf_eq_ok, not_lt] at h
  obtain ⟨count, hcount, start, hstart, payload, hpayload, _, hmax, length, hlength, magic, hmagic, sized, hsized,
    summed, hsummed, hframe⟩ := h
  obtain ⟨encoded, hencoded, hresult⟩ := encodeEvents_eq_ok events hpayload
  have hitems : payload.items = payloadOf encoded := by
    rw [hresult, extendFromSlice_eq_ok hstart, u32TryFrom_eq_ok hcount, hencoded.length_eq]
    rfl
  refine ⟨encoded, hencoded, ?_, ?_, ?_⟩
  · rw [← hencoded.length_eq, ← u32TryFrom_eq_ok hcount]
    exact count.toNat_lt
  · rwa [hitems] at hmax
  · rw [extendFromSlice_eq_ok hframe, extendFromSlice_eq_ok hsummed, extendFromSlice_eq_ok hsized,
      extendFromSlice_eq_ok hmagic, hlength, hitems, frameOf, batchHeader]
    simp only [List.append_assoc, List.nil_append]

end WeavatrixMemory.Store.Frame
