import WeavatrixMemory.Codecs.Compression
import WeavatrixMemory.Codecs.Encryption

namespace WeavatrixMemory.Codecs.Layers

open Error Identity Codecs.Basic Codecs.Compression Codecs.Encryption

variable {T : Type}

inductive Layer
  | lz4 (maxDecodedBytes : Nat) (positive : maxDecodedBytes ≠ 0)
  | xchacha (context : Vec UInt8) (maxPlaintextBytes : Nat) (decryptionKey : Text → Result Key)
      (nonempty : context.items ≠ []) (positive : maxPlaintextBytes ≠ 0)

/-- What an encrypting layer gets when a value is encoded. -/
structure Draw where
  activeKey : Result EncryptionKey
  fill : Result Nonce

structure Crates where
  block : Block
  aead : Aead

structure Crates.Invert (crates : Crates) : Prop where
  block : crates.block.Inverts
  aead : crates.aead.Inverts

variable (crates : Crates)

def Layer.wrap (layer : Layer) (draw : Draw) (inner : Codec T) : Codec T :=
  match layer with
  | .lz4 maxDecodedBytes positive => Lz4Codec.toCodec crates.block ⟨inner, maxDecodedBytes, positive⟩
  | .xchacha context maxPlaintextBytes decryptionKey nonempty positive =>
      XChaCha20Codec.toCodec crates.aead
        ⟨inner, ⟨draw.activeKey, decryptionKey⟩, draw.fill, context, maxPlaintextBytes, nonempty, positive⟩

/-- The codec around which the layers are wrapped, the outermost first. A layer has a draw of its own
in each call, by the number of the layers in it. -/
def stack (base : Codec T) : List Layer → (Nat → Draw) → Codec T
  | [], _ => base
  | layer :: inner, draws => layer.wrap crates (draws inner.length) (stack base inner draws)

def Layer.close (layer : Layer) (draw : Draw) (raw : Vec UInt8) : Result (Vec UInt8) :=
  match layer with
  | .lz4 maxDecodedBytes _ => compress crates.block maxDecodedBytes raw
  | .xchacha context maxPlaintextBytes _ _ _ =>
      encrypt crates.aead draw.activeKey draw.fill context maxPlaintextBytes raw

def Layer.disclose (layer : Layer) (bytes : List UInt8) : Result (List UInt8) :=
  match layer with
  | .lz4 maxDecodedBytes _ => decompress crates.block maxDecodedBytes bytes
  | .xchacha context maxPlaintextBytes decryptionKey _ _ =>
      decrypt crates.aead decryptionKey context maxPlaintextBytes bytes

def Layer.Admits (layer : Layer) (raw : Vec UInt8) : Prop :=
  match layer with
  | .lz4 maxDecodedBytes _ => raw.items.length ≤ maxDecodedBytes ∧
      Compression.headerLen + crates.block.maximumOutputSize raw.items.length < 2 ^ 63
  | .xchacha context maxPlaintextBytes _ _ _ => raw.items.length ≤ maxPlaintextBytes ∧
      raw.items.length ≤ crates.aead.maxMessage ∧
      fixedHeaderLen + maxKeyIdBytes + context.items.length < 2 ^ 63 ∧
      fixedHeaderLen + maxKeyIdBytes + raw.items.length + tagLen < 2 ^ 63

def Layer.Available (layer : Layer) (draw : Draw) : Prop :=
  match layer with
  | .lz4 _ _ => True
  | .xchacha _ _ decryptionKey _ _ => ∃ key nonce, draw.activeKey = .ok key ∧ ValidKeyId key.id ∧
      decryptionKey key.id = .ok key.bytes ∧ draw.fill = .ok nonce

def Fits (base : Codec T) : List Layer → (Nat → Draw) → T → Prop
  | [], _, _ => True
  | layer :: inner, draws, value => Fits base inner draws value ∧
      ∀ raw, (stack crates base inner draws).encode value = .ok raw → layer.Admits crates raw

def Available : List Layer → (Nat → Draw) → Prop
  | [], _ => True
  | layer :: inner, draws => layer.Available (draws inner.length) ∧ Available inner draws

def SameDraws : List Layer → (Nat → Draw) → (Nat → Draw) → Prop
  | [], _, _ => True
  | .lz4 _ _ :: inner, draws, draws' => SameDraws inner draws draws'
  | .xchacha _ _ _ _ _ :: inner, draws, draws' =>
      draws inner.length = draws' inner.length ∧ SameDraws inner draws draws'

variable {crates} {layers : List Layer} {draws draws' : Nat → Draw} {base base' : Codec T}

theorem encode_wrap (layer : Layer) (draw : Draw) (inner : Codec T) (value : T) :
    (layer.wrap crates draw inner).encode value = inner.encode value >>= layer.close crates draw := by
  cases layer <;> rfl

theorem decode_wrap (layer : Layer) (draw : Draw) (inner : Codec T) (bytes : List UInt8) :
    (layer.wrap crates draw inner).decode bytes = layer.disclose crates bytes >>= inner.decode := by
  cases layer <;> rfl

theorem disclose_close (hcrates : crates.Invert) {layer : Layer} {draw : Draw} (havailable : layer.Available draw)
    {raw bytes : Vec UInt8} (h : layer.close crates draw raw = .ok bytes) :
    layer.disclose crates bytes.items = .ok raw.items := by
  cases layer with
  | lz4 => exact decompress_compress hcrates.block h
  | xchacha =>
      obtain ⟨key, nonce, hkey, -, hdecryption, -⟩ := havailable
      refine decrypt_encrypt hcrates.aead (fun other hother => ?_) h
      obtain rfl : key = other := Except.ok.inj (hkey.symm.trans hother)
      exact hdecryption

theorem close_of_admits (hcrates : crates.Invert) {layer : Layer} {draw : Draw} (havailable : layer.Available draw)
    {raw : Vec UInt8} (h : layer.Admits crates raw) : ∃ bytes, layer.close crates draw raw = .ok bytes := by
  cases layer with
  | lz4 => exact compress_of_le hcrates.block h.1 h.2
  | xchacha =>
      obtain ⟨key, nonce, hkey, hvalid, -, hfill⟩ := havailable
      obtain ⟨hmax, hmessage, hcontext, hroom⟩ := h
      exact encrypt_of_le hcrates.aead hkey hvalid hfill hmax hmessage hcontext hroom

theorem stack_encode (hcrates : crates.Invert) {value : T} {raw : Vec UInt8} (hbase : base.encode value = .ok raw)
    (havailable : Available layers draws) (hfits : Fits crates base layers draws value) :
    ∃ bytes, (stack crates base layers draws).encode value = .ok bytes := by
  induction layers with
  | nil => exact ⟨raw, hbase⟩
  | cons layer inner ih =>
      obtain ⟨bytes, hbytes⟩ := ih havailable.2 hfits.1
      obtain ⟨closed, hclosed⟩ := close_of_admits hcrates havailable.1 (hfits.2 bytes hbytes)
      refine ⟨closed, ?_⟩
      rw [stack, encode_wrap, hbytes, ok_bind, hclosed]

theorem stack_decode (hcrates : crates.Invert) {value : T} {bytes : Vec UInt8} (havailable : Available layers draws)
    (h : (stack crates base layers draws).encode value = .ok bytes) :
    ∃ raw, base.encode value = .ok raw ∧
      ∀ (base' : Codec T) (draws' : Nat → Draw),
        (stack crates base' layers draws').decode bytes.items = base'.decode raw.items := by
  induction layers generalizing bytes with
  | nil => exact ⟨bytes, h, fun _ _ => rfl⟩
  | cons layer inner ih =>
      rw [stack, encode_wrap] at h
      obtain ⟨middle, hmiddle, hclosed⟩ := bind_eq_ok.mp h
      obtain ⟨raw, hraw, hdecode⟩ := ih havailable.2 hmiddle
      refine ⟨raw, hraw, fun base' draws' => ?_⟩
      rw [stack, decode_wrap, disclose_close hcrates havailable.1 hclosed, ok_bind, hdecode]

/-- The result depends on the bytes of the value, the keys and the nonces only. -/
theorem stack_encode_congr {a b : T} (hbase : base.encode a = base'.encode b) (h : SameDraws layers draws draws') :
    (stack crates base layers draws).encode a = (stack crates base' layers draws').encode b := by
  induction layers with
  | nil => exact hbase
  | cons layer inner ih =>
      rw [stack, stack, encode_wrap, encode_wrap]
      cases layer with
      | lz4 =>
          rw [ih h]
          rfl
      | xchacha => rw [ih h.2, h.1]

theorem sameDraws_refl (layers : List Layer) (draws : Nat → Draw) : SameDraws layers draws draws := by
  induction layers with
  | nil => trivial
  | cons layer inner ih =>
      cases layer with
      | lz4 => exact ih
      | xchacha => exact ⟨rfl, ih⟩

end WeavatrixMemory.Codecs.Layers
