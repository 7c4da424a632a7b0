import WeavatrixMemory.Codecs.Basic
import WeavatrixMemory.Library.XChaCha
import WeavatrixMemory.Snapshot.Io
import WeavatrixMemory.Store.Frame

namespace WeavatrixMemory.Codecs.Encryption

open Error Identity Codecs.Basic
open Snapshot.Io (decodeUtf8 decodeUtf8_bytes)
open Store.Frame (extendFromSlice extendFromSlice_eq_ok extendFromSlice_of_lt)

variable {T : Type}

structure Bytes (n : Nat) where
  items : List UInt8
  length_eq : items.length = n
deriving DecidableEq

def nonceLen : Nat := 24

def tagLen : Nat := 16

def maxKeyIdBytes : Nat := 64

def fixedHeaderLen : Nat := 33

abbrev Key : Type := Bytes 32

abbrev Nonce : Type := Bytes nonceLen

/-- The cipher of the cryptography crate. Encryption gives a ciphertext and a tag, for messages up to
a maximal length, and decryption takes the one followed by the other. -/
structure Aead where
  maxMessage : Nat
  encrypt : Key → Nonce → List UInt8 → List UInt8 → Option (List UInt8 × List UInt8)
  decrypt : Key → Nonce → List UInt8 → List UInt8 → Option (List UInt8)

structure Aead.Inverts (aead : Aead) : Prop where
  encrypts : ∀ key nonce aad plaintext, plaintext.length ≤ aead.maxMessage →
    ∃ output, aead.encrypt key nonce aad plaintext = some output
  lengths : ∀ key nonce aad plaintext ciphertext tag,
    aead.encrypt key nonce aad plaintext = some (ciphertext, tag) →
      ciphertext.length = plaintext.length ∧ tag.length = tagLen
  opens : ∀ key nonce aad plaintext ciphertext tag,
    aead.encrypt key nonce aad plaintext = some (ciphertext, tag) →
      aead.decrypt key nonce aad (ciphertext ++ tag) = some plaintext

/-- The eight bytes `WMEMXE01`. -/
def header : List UInt8 := [0x57, 0x4d, 0x45, 0x4d, 0x58, 0x45, 0x30, 0x31]

def codec (message : String) : MemoryError := .codec message

def invalid (field reason : String) : MemoryError := .invalidValue field reason

structure EncryptionKey where
  id : Text
  bytes : Key
deriving DecidableEq

/-- What a provider of keys answers at the time of a call. -/
structure EncryptionKeys where
  activeKey : Result EncryptionKey
  decryptionKey : Text → Result Key

def ValidKeyId (id : Text) : Prop :=
  id.bytes ≠ [] ∧ id.bytes.length ≤ maxKeyIdBytes ∧ ∀ byte ∈ id.bytes, byte < 128

instance decidableValidKeyId (id : Text) : Decidable (ValidKeyId id) := inferInstanceAs (Decidable (_ ∧ _ ∧ _))

def validateKeyId (id : Text) : Result Unit :=
  throwIf (¬ ValidKeyId id) (invalid "encryption.key_id" "must be 1..=64 ASCII bytes")

structure StaticKey where
  key : EncryptionKey
  valid : ValidKeyId key.id

def StaticKey.new (id : Text) (bytes : Key) : Result StaticKey :=
  if h : ValidKeyId id then .ok ⟨⟨id, bytes⟩, h⟩
  else .error (invalid "encryption.key_id" "must be 1..=64 ASCII bytes")

def StaticKey.keys (staticKey : StaticKey) : EncryptionKeys where
  activeKey := .ok staticKey.key
  decryptionKey id := if id = staticKey.key.id then .ok staticKey.key.bytes
    else .error (codec "encryption key is unavailable")

theorem StaticKey.decryptionKey_id (staticKey : StaticKey) :
    staticKey.keys.decryptionKey staticKey.key.id = .ok staticKey.key.bytes := by
  rw [StaticKey.keys]
  exact if_pos rfl

/-- The codec at the time of a call, at which the nonce source gives a nonce or fails. -/
structure XChaCha20Codec (T : Type) where
  inner : Codec T
  keys : EncryptionKeys
  fill : Result Nonce
  context : Vec UInt8
  maxPlaintextBytes : Nat
  nonempty : context.items ≠ []
  positive : maxPlaintextBytes ≠ 0

def XChaCha20Codec.withNonceSource (inner : Codec T) (keys : EncryptionKeys) (context : Vec UInt8)
    (maxPlaintextBytes : Nat) (fill : Result Nonce) : Result (XChaCha20Codec T) :=
  if hc : context.items ≠ [] then
    if hm : maxPlaintextBytes ≠ 0 then .ok ⟨inner, keys, fill, context, maxPlaintextBytes, hc, hm⟩
    else .error (invalid "max_plaintext_bytes" "must be greater than zero")
  else .error (invalid "encryption.context" "must not be empty")

def headerOf (keyId : Text) (nonce : Nonce) : List UInt8 :=
  header ++ (UInt8.ofNat keyId.bytes.length :: (nonce.items ++ keyId.bytes))

def envelopeHeader (keyId : Text) (nonce : Nonce) : Result (Vec UInt8) := do
  throwIf (2 ^ 8 ≤ keyId.bytes.length) (codec "key identifier is too long")
  extendFromSlice ⟨[], nil_fits⟩ (headerOf keyId nonce)

/-- `encode` from the encoded value on. -/
def encrypt (aead : Aead) (activeKey : Result EncryptionKey) (fill : Result Nonce) (context : Vec UInt8)
    (maxPlaintextBytes : Nat) (plaintext : Vec UInt8) : Result (Vec UInt8) := do
  throwIf (maxPlaintextBytes < plaintext.items.length)
    (invalid "plaintext" "encoded value exceeds max_plaintext_bytes")
  let key ← activeKey
  validateKeyId key.id
  let nonce ← fill
  let header ← envelopeHeader key.id nonce
  let aad ← extendFromSlice header context.items
  throwIf (2 ^ 63 ≤ header.items.length + plaintext.items.length + tagLen) .panicked
  match aead.encrypt key.bytes nonce aad.items plaintext.items with
  | none => .error (codec "encryption failed")
  | some (ciphertext, tag) => do
      let output ← extendFromSlice header ciphertext
      extendFromSlice output tag

structure Envelope where
  header : List UInt8
  keyId : Text
  nonce : Nonce
  ciphertext : List UInt8

def toBytes (n : Nat) (slice : List UInt8) : Result (Bytes n) :=
  if h : slice.length = n then .ok ⟨slice, h⟩ else .error (codec "invalid encryption nonce")

def parseKeyId (bytes : List UInt8) : Result Text :=
  match decodeUtf8 bytes with
  | .ok keyId => .ok keyId
  | .error _ => .error (codec "invalid key identifier")

def parseEnvelope (bytes : List UInt8) : Result Envelope := do
  throwIf (bytes.length < fixedHeaderLen ∨ bytes.take 8 ≠ header) (codec "unsupported encrypted envelope")
  let keyLen ← getAt bytes 8
  let headerLen ← usizeChecked (fixedHeaderLen + keyLen.toNat)
  throwIf (bytes.length < headerLen + tagLen) (codec "truncated encrypted envelope")
  let nonce ← toBytes nonceLen ((bytes.drop 9).take nonceLen)
  let keyId ← parseKeyId ((bytes.take headerLen).drop fixedHeaderLen)
  validateKeyId keyId
  .ok { header := bytes.take headerLen, keyId, nonce, ciphertext := bytes.drop headerLen }

/-- `decode` up to the value that is left to decode. -/
def decrypt (aead : Aead) (decryptionKey : Text → Result Key) (context : Vec UInt8) (maxPlaintextBytes : Nat)
    (bytes : List UInt8) : Result (List UInt8) := do
  let envelope ← parseEnvelope bytes
  throwIf (envelope.ciphertext.length < tagLen ∨ maxPlaintextBytes < envelope.ciphertext.length - tagLen)
    (codec "ciphertext exceeds configured size limit")
  throwIf (2 ^ 63 ≤ envelope.header.length + context.items.length) .panicked
  let key ← decryptionKey envelope.keyId
  match aead.decrypt key envelope.nonce (envelope.header ++ context.items) envelope.ciphertext with
  | none => .error (codec "authentication failed")
  | some plaintext => .ok plaintext

def XChaCha20Codec.toCodec (aead : Aead) (xchacha : XChaCha20Codec T) : Codec T where
  encode value := do
    let plaintext ← xchacha.inner.encode value
    encrypt aead xchacha.keys.activeKey xchacha.fill xchacha.context xchacha.maxPlaintextBytes plaintext
  decode bytes := do
    let plaintext ← decrypt aead xchacha.keys.decryptionKey xchacha.context xchacha.maxPlaintextBytes bytes
    xchacha.inner.decode plaintext

variable {aead : Aead} {activeKey : Result EncryptionKey} {fill : Result Nonce} {context : Vec UInt8}
  {maxPlaintextBytes : Nat}

theorem length_headerOf (keyId : Text) (nonce : Nonce) :
    (headerOf keyId nonce).length = fixedHeaderLen + keyId.bytes.length := by
  simp only [headerOf, List.length_append, List.length_cons, nonce.length_eq, header, nonceLen, fixedHeaderLen,
    List.length_nil]
  omega

structure Encrypted (aead : Aead) (key : EncryptionKey) (nonce : Nonce) (context : List UInt8)
    (plaintext bytes : List UInt8) : Prop where
  valid : ValidKeyId key.id
  aadFits : (headerOf key.id nonce).length + context.length < 2 ^ 63
  encrypted : ∃ ciphertext tag,
    aead.encrypt key.bytes nonce (headerOf key.id nonce ++ context) plaintext = some (ciphertext, tag) ∧
      bytes = headerOf key.id nonce ++ (ciphertext ++ tag)

theorem encrypt_eq_ok {plaintext bytes : Vec UInt8}
    (h : encrypt aead activeKey fill context maxPlaintextBytes plaintext = .ok bytes) :
    plaintext.items.length ≤ maxPlaintextBytes ∧ ∃ key nonce, activeKey = .ok key ∧ fill = .ok nonce ∧
      Encrypted aead key nonce context.items plaintext.items bytes.items := by
  simp only [encrypt, envelopeHeader, validateKeyId, bind_eq_ok, throwIf_eq_ok, not_not, not_lt] at h
  obtain ⟨-, hmax, key, hkey, -, hvalid, nonce, hnonce, prelude, ⟨-, -, hheader⟩, aad, haad, -, -, hrest⟩ := h
  have hprelude := extendFromSlice_eq_ok hheader
  have hassociated := extendFromSlice_eq_ok haad
  have hfits := aad.fits
  rw [List.nil_append] at hprelude
  rw [hassociated, hprelude, List.length_append] at hfits
  refine ⟨hmax, key, nonce, hkey, hnonce, hvalid, hfits, ?_⟩
  rw [hassociated, hprelude] at hrest
  split at hrest
  next => cases hrest
  next ciphertext tag he =>
    obtain ⟨output, houtput, hbytes⟩ := bind_eq_ok.mp hrest
    refine ⟨ciphertext, tag, he, ?_⟩
    rw [extendFromSlice_eq_ok hbytes, extendFromSlice_eq_ok houtput, hprelude, List.append_assoc]

theorem parseEnvelope_headerOf {keyId : Text} (hvalid : ValidKeyId keyId) (nonce : Nonce)
    {ciphertext : List UInt8} (hlen : tagLen ≤ ciphertext.length) :
    parseEnvelope (headerOf keyId nonce ++ ciphertext) =
      .ok { header := headerOf keyId nonce, keyId, nonce, ciphertext } := by
  have hshort : keyId.bytes.length < 2 ^ 8 := Nat.lt_of_le_of_lt hvalid.2.1 (by decide)
  have hheader := length_headerOf keyId nonce
  have hmagic : (headerOf keyId nonce ++ ciphertext).take 8 = header := by
    rw [headerOf, List.append_assoc]
    exact List.take_left' rfl
  have hkeyLen : getAt (headerOf keyId nonce ++ ciphertext) 8 = .ok (UInt8.ofNat keyId.bytes.length) := rfl
  have htail : (headerOf keyId nonce ++ ciphertext).drop 9 = nonce.items ++ keyId.bytes ++ ciphertext := rfl
  have hnonce : ((headerOf keyId nonce ++ ciphertext).drop 9).take nonceLen = nonce.items := by
    rw [htail, List.append_assoc]
    exact List.take_left' nonce.length_eq
  have hfront : (headerOf keyId nonce ++ ciphertext).take (fixedHeaderLen + keyId.bytes.length) =
      headerOf keyId nonce := List.take_left' hheader
  have hback : (headerOf keyId nonce ++ ciphertext).drop (fixedHeaderLen + keyId.bytes.length) = ciphertext :=
    List.drop_left' hheader
  have hkeyId : (headerOf keyId nonce).drop fixedHeaderLen = keyId.bytes := by
    rw [show fixedHeaderLen = 9 + nonceLen from rfl, ← List.drop_drop]
    exact List.drop_left' nonce.length_eq
  have hchecked : usizeChecked (fixedHeaderLen + keyId.bytes.length) = .ok (fixedHeaderLen + keyId.bytes.length) :=
    if_pos (by simp only [fixedHeaderLen]; omega)
  have hlong : ¬ (fixedHeaderLen + keyId.bytes.length + ciphertext.length < fixedHeaderLen ∨ False) := by
    simp only [or_false, not_lt]
    omega
  have hwhole : ¬ fixedHeaderLen + keyId.bytes.length + ciphertext.length <
      fixedHeaderLen + keyId.bytes.length + tagLen := by omega
  have hsmall : (UInt8.ofNat keyId.bytes.length).toNat = keyId.bytes.length := UInt8.toNat_ofNat_of_lt' hshort
  simp only [parseEnvelope, List.length_append, hheader, hmagic, hkeyLen, hnonce, ne_eq, not_true_eq_false,
    throwIf_of_not hlong, ok_bind, hsmall, hchecked, hfront, hback, hkeyId, throwIf_of_not hwhole, toBytes,
    dif_pos nonce.length_eq, parseKeyId, decodeUtf8_bytes, validateKeyId, hvalid, not_false_eq_true, throwIf_of_not]

theorem decrypt_encrypt (haead : aead.Inverts) {decryptionKey : Text → Result Key} {plaintext bytes : Vec UInt8}
    (hkeys : ∀ key, activeKey = .ok key → decryptionKey key.id = .ok key.bytes)
    (h : encrypt aead activeKey fill context maxPlaintextBytes plaintext = .ok bytes) :
    decrypt aead decryptionKey context maxPlaintextBytes bytes.items = .ok plaintext.items := by
  obtain ⟨hmax, key, nonce, hkey, -, hvalid, hfits, ciphertext, tag, hencrypted, hbytes⟩ := encrypt_eq_ok h
  obtain ⟨hc, ht⟩ := haead.lengths _ _ _ _ _ _ hencrypted
  have hlen : (ciphertext ++ tag).length = plaintext.items.length + tagLen := by
    rw [List.length_append, hc, ht]
  have hparse : parseEnvelope bytes.items = .ok ⟨headerOf key.id nonce, key.id, nonce, ciphertext ++ tag⟩ := by
    rw [hbytes]
    exact parseEnvelope_headerOf hvalid nonce (by rw [hlen]; exact Nat.le_add_left _ _)
  have hlimits : ¬ (plaintext.items.length + tagLen < tagLen ∨
      maxPlaintextBytes < plaintext.items.length + tagLen - tagLen) := by omega
  simp only [decrypt, hparse, ok_bind, hlen, throwIf_of_not hlimits, throwIf_of_not (Nat.not_le.mpr hfits),
    hkeys key hkey, haead.opens _ _ _ _ _ _ hencrypted]

/-- An envelope tells the nonce that it was made with. -/
theorem encrypt_nonce (haead : aead.Inverts) {activeKey' : Result EncryptionKey} {fill' : Result Nonce}
    {plaintext plaintext' bytes bytes' : Vec UInt8}
    (h : encrypt aead activeKey fill context maxPlaintextBytes plaintext = .ok bytes)
    (h' : encrypt aead activeKey' fill' context maxPlaintextBytes plaintext' = .ok bytes')
    (heq : bytes.items = bytes'.items) : fill = fill' := by
  have hparse {activeKey : Result EncryptionKey} {fill : Result Nonce} {plaintext bytes : Vec UInt8}
      (h : encrypt aead activeKey fill context maxPlaintextBytes plaintext = .ok bytes) :
      ∃ envelope, parseEnvelope bytes.items = .ok envelope ∧ fill = .ok envelope.nonce := by
    obtain ⟨-, key, nonce, -, hfill, hvalid, -, ciphertext, tag, hencrypted, hbytes⟩ := encrypt_eq_ok h
    obtain ⟨-, ht⟩ := haead.lengths _ _ _ _ _ _ hencrypted
    have hlen : tagLen ≤ (ciphertext ++ tag).length := by
      rw [List.length_append, ht]
      exact Nat.le_add_left _ _
    exact ⟨_, by rw [hbytes]; exact parseEnvelope_headerOf hvalid nonce hlen, hfill⟩
  obtain ⟨envelope, hparsed, hfill⟩ := hparse h
  obtain ⟨envelope', hparsed', hfill'⟩ := hparse h'
  rw [← heq, hparsed, Except.ok.injEq] at hparsed'
  rw [hfill, hfill', hparsed']

theorem encrypt_of_le (haead : aead.Inverts) {plaintext : Vec UInt8} {key : EncryptionKey} {nonce : Nonce}
    (hkey : activeKey = .ok key) (hvalid : ValidKeyId key.id) (hfill : fill = .ok nonce)
    (hmax : plaintext.items.length ≤ maxPlaintextBytes) (hmessage : plaintext.items.length ≤ aead.maxMessage)
    (hcontext : fixedHeaderLen + maxKeyIdBytes + context.items.length < 2 ^ 63)
    (hroom : fixedHeaderLen + maxKeyIdBytes + plaintext.items.length + tagLen < 2 ^ 63) :
    ∃ bytes, encrypt aead activeKey fill context maxPlaintextBytes plaintext = .ok bytes := by
  have hid := hvalid.2.1
  have hshort : ¬ 2 ^ 8 ≤ key.id.bytes.length := Nat.not_le.mpr (hid.trans_lt (by decide))
  have hheader := length_headerOf key.id nonce
  obtain ⟨prelude, hprelude, hp⟩ := @extendFromSlice_of_lt ⟨[], nil_fits⟩ (headerOf key.id nonce) (by
    simp only [List.length_nil, hheader, fixedHeaderLen] at hroom ⊢
    omega)
  rw [List.nil_append] at hp
  obtain ⟨aad, haad, ha⟩ := @extendFromSlice_of_lt prelude context.items (by
    rw [hp, hheader]
    omega)
  obtain ⟨⟨ciphertext, tag⟩, hencrypted⟩ := haead.encrypts key.bytes nonce aad.items plaintext.items hmessage
  obtain ⟨hc, ht⟩ := haead.lengths _ _ _ _ _ _ hencrypted
  have hwhole : ¬ 2 ^ 63 ≤ prelude.items.length + plaintext.items.length + tagLen := by
    rw [hp, hheader]
    omega
  obtain ⟨output, houtput, ho⟩ := @extendFromSlice_of_lt prelude ciphertext (by
    rw [hp, hheader, hc]
    omega)
  obtain ⟨bytes, hbytes, -⟩ := @extendFromSlice_of_lt output tag (by
    rw [ho, List.length_append, hp, hheader, hc, ht]
    omega)
  refine ⟨bytes, ?_⟩
  simp only [encrypt, throwIf_of_not (Nat.not_lt.mpr hmax), hkey, validateKeyId, hvalid, not_true_eq_false,
    not_false_eq_true, throwIf_of_not, hfill, envelopeHeader, throwIf_of_not hshort, hprelude, haad,
    throwIf_of_not hwhole, hencrypted, houtput, hbytes, ok_bind]

def cipher : Aead where
  maxMessage := XChaCha.maxMessage
  encrypt key nonce aad plaintext := XChaCha.encrypt key.items nonce.items aad plaintext
  decrypt key nonce aad message := XChaCha.decrypt key.items nonce.items aad message

theorem cipher_inverts : cipher.Inverts where
  encrypts _ _ _ _ h := ⟨_, if_pos h⟩
  lengths _ _ _ _ _ _ h := ⟨(XChaCha.encrypt_eq_some h).2.1, (XChaCha.encrypt_eq_some h).2.2.2⟩
  opens _ _ _ _ _ _ h := XChaCha.decrypt_encrypt h

end WeavatrixMemory.Codecs.Encryption
