import WeavatrixMemory.Codecs.Encryption

namespace WeavatrixMemory.Codecs.Binding

open Error Identity Codecs.Basic Codecs.Encryption
open Snapshot.Io (decodeUtf8_eq_ok bytes_inj)
open Store.Frame (extendFromSlice extendFromSlice_eq_ok extendFromSlice_of_lt)

structure Query where
  key : Key
  nonce : Nonce
  aad : List UInt8
  plaintext : List UInt8
deriving DecidableEq

def Query.output (aead : Aead) (query : Query) : Option (List UInt8 × List UInt8) :=
  aead.encrypt query.key query.nonce query.aad query.plaintext

/-- A cipher that decrypts what it has encrypted, and nothing else. -/
structure Ideal (aead : Aead) (made : Query → Prop) : Prop where
  encrypts : ∀ query : Query, query.plaintext.length ≤ aead.maxMessage → ∃ output, query.output aead = some output
  lengths : ∀ (query : Query) ciphertext tag, query.output aead = some (ciphertext, tag) →
    ciphertext.length = query.plaintext.length ∧ tag.length = tagLen
  opens : ∀ (query : Query) ciphertext tag, made query → query.output aead = some (ciphertext, tag) →
    aead.decrypt query.key query.nonce query.aad (ciphertext ++ tag) = some query.plaintext
  authentic : ∀ key nonce aad message plaintext, aead.decrypt key nonce aad message = some plaintext →
    ∃ query ciphertext tag, made query ∧ query.output aead = some (ciphertext, tag) ∧
      query = ⟨key, nonce, aad, plaintext⟩ ∧ message = ciphertext ++ tag

/-- `encrypt` up to the call of the cipher: the header of the envelope, and what is asked. -/
def request (activeKey : Result EncryptionKey) (fill : Result Nonce) (context : Vec UInt8)
    (maxPlaintextBytes : Nat) (plaintext : Vec UInt8) : Result (Vec UInt8 × Query) := do
  throwIf (maxPlaintextBytes < plaintext.items.length)
    (invalid "plaintext" "encoded value exceeds max_plaintext_bytes")
  let key ← activeKey
  validateKeyId key.id
  let nonce ← fill
  let header ← envelopeHeader key.id nonce
  let aad ← extendFromSlice header context.items
  throwIf (2 ^ 63 ≤ header.items.length + plaintext.items.length + tagLen) .panicked
  .ok (header, ⟨key.bytes, nonce, aad.items, plaintext.items⟩)

/-- `encrypt` from the call of the cipher on. -/
def complete (aead : Aead) (asked : Vec UInt8 × Query) : Result (Vec UInt8) :=
  match asked.2.output aead with
  | none => .error (codec "encryption failed")
  | some (ciphertext, tag) => do
      let output ← extendFromSlice asked.1 ciphertext
      extendFromSlice output tag

structure Call where
  T : Type
  codec : XChaCha20Codec T
  value : T

def Call.encode (aead : Aead) (call : Call) : Result (Vec UInt8) := (call.codec.toCodec aead).encode call.value

def Call.request (call : Call) : Result (Vec UInt8 × Query) := do
  let plaintext ← call.codec.inner.encode call.value
  Binding.request call.codec.keys.activeKey call.codec.fill call.codec.context call.codec.maxPlaintextBytes plaintext

def Queried (calls : List Call) (query : Query) : Prop :=
  ∃ call ∈ calls, ∃ header, call.request = .ok (header, query)

/-- A provider that maps the identifier of its active key to that key. -/
def Consistent (keys : EncryptionKeys) : Prop :=
  ∀ key, keys.activeKey = .ok key → keys.decryptionKey key.id = .ok key.bytes

/-- A codec whose key provider does not panic, and whose context fits into a vector with any header. -/
structure Opens {T : Type} (codec : XChaCha20Codec T) : Prop where
  keys : ∀ id, Safe (codec.keys.decryptionKey id)
  fits : fixedHeaderLen + maxKeyIdBytes + codec.context.items.length < 2 ^ 63

/-- The call has made the envelope, with this active key and this context. -/
structure Call.Makes (aead : Aead) (call : Call) (key : EncryptionKey) (context : Vec UInt8)
    (envelope : List UInt8) : Prop where
  active : call.codec.keys.activeKey = .ok key
  bound : call.codec.context = context
  made : ∃ bytes, call.encode aead = .ok bytes ∧ bytes.items = envelope

variable {aead : Aead} {calls : List Call} {activeKey : Result EncryptionKey} {fill : Result Nonce}
  {context : Vec UInt8} {maxPlaintextBytes : Nat} {plaintext : Vec UInt8}

theorem encrypt_eq : encrypt aead activeKey fill context maxPlaintextBytes plaintext =
    request activeKey fill context maxPlaintextBytes plaintext >>= complete aead := by
  simp only [encrypt, request, bind_assoc, ok_bind]
  rfl

theorem Call.encode_eq (call : Call) : call.encode aead = call.request >>= complete aead := by
  simp only [Call.encode, Call.request, XChaCha20Codec.toCodec, bind_assoc, encrypt_eq]

structure Asks (activeKey : Result EncryptionKey) (fill : Result Nonce) (context : Vec UInt8)
    (maxPlaintextBytes : Nat) (plaintext : Vec UInt8) (key : EncryptionKey) (nonce : Nonce) : Prop where
  active : activeKey = .ok key
  filled : fill = .ok nonce
  valid : ValidKeyId key.id
  admitted : plaintext.items.length ≤ maxPlaintextBytes
  aadFits : (headerOf key.id nonce).length + context.items.length < 2 ^ 63
  outputFits : (headerOf key.id nonce).length + plaintext.items.length + tagLen < 2 ^ 63

theorem request_eq_ok {header : Vec UInt8} {query : Query}
    (h : request activeKey fill context maxPlaintextBytes plaintext = .ok (header, query)) :
    ∃ key nonce, Asks activeKey fill context maxPlaintextBytes plaintext key nonce ∧
      header.items = headerOf key.id nonce ∧
      query = ⟨key.bytes, nonce, headerOf key.id nonce ++ context.items, plaintext.items⟩ := by
  simp only [request, envelopeHeader, validateKeyId, bind_eq_ok, throwIf_eq_ok, not_not, not_lt, not_le] at h
  obtain ⟨-, hmax, key, hkey, -, hvalid, nonce, hnonce, front, ⟨-, -, hfront⟩, aad, haad, -, houtput, hrest⟩ := h
  have hitems := extendFromSlice_eq_ok hfront
  have hassociated := extendFromSlice_eq_ok haad
  have hfits := aad.fits
  rw [List.nil_append] at hitems
  rw [hassociated, hitems, List.length_append] at hfits
  rw [hitems] at houtput
  obtain ⟨rfl, rfl⟩ := Prod.mk.inj (Except.ok.inj hrest)
  refine ⟨key, nonce, ⟨hkey, hnonce, hvalid, hmax, hfits, houtput⟩, hitems, ?_⟩
  rw [hassociated, hitems]

theorem request_of_asks {key : EncryptionKey} {nonce : Nonce}
    (h : Asks activeKey fill context maxPlaintextBytes plaintext key nonce) :
    ∃ asked, request activeKey fill context maxPlaintextBytes plaintext = .ok asked := by
  have hshort : ¬ 2 ^ 8 ≤ key.id.bytes.length := Nat.not_le.mpr (h.valid.2.1.trans_lt (by decide))
  have haadFits := h.aadFits
  obtain ⟨front, hfront, hitems⟩ := @extendFromSlice_of_lt ⟨[], nil_fits⟩ (headerOf key.id nonce) (by
    rw [List.length_nil]
    omega)
  rw [List.nil_append] at hitems
  obtain ⟨aad, haad, -⟩ := @extendFromSlice_of_lt front context.items (by rwa [hitems])
  have houtput : ¬ 2 ^ 63 ≤ front.items.length + plaintext.items.length + tagLen := by
    rw [hitems]
    exact Nat.not_le.mpr h.outputFits
  refine ⟨(front, ⟨key.bytes, nonce, aad.items, plaintext.items⟩), ?_⟩
  simp only [request, throwIf_of_not (Nat.not_lt.mpr h.admitted), h.active, validateKeyId, h.valid, not_true_eq_false,
    not_false_eq_true, throwIf_of_not, h.filled, envelopeHeader, throwIf_of_not hshort, hfront, haad,
    throwIf_of_not houtput, ok_bind]

theorem complete_eq_ok {asked : Vec UInt8 × Query} {bytes : Vec UInt8} (h : complete aead asked = .ok bytes) :
    ∃ ciphertext tag, asked.2.output aead = some (ciphertext, tag) ∧
      bytes.items = asked.1.items ++ (ciphertext ++ tag) := by
  rw [complete] at h
  split at h
  next => cases h
  next ciphertext tag hencrypted =>
    obtain ⟨output, houtput, hbytes⟩ := bind_eq_ok.mp h
    refine ⟨ciphertext, tag, hencrypted, ?_⟩
    rw [extendFromSlice_eq_ok hbytes, extendFromSlice_eq_ok houtput, List.append_assoc]

theorem complete_of_output {asked : Vec UInt8 × Query} {ciphertext tag : List UInt8}
    (hencrypted : asked.2.output aead = some (ciphertext, tag))
    (hfits : asked.1.items.length + (ciphertext.length + tag.length) < 2 ^ 63) :
    ∃ bytes, complete aead asked = .ok bytes ∧ bytes.items = asked.1.items ++ (ciphertext ++ tag) := by
  obtain ⟨output, houtput, ho⟩ := @extendFromSlice_of_lt asked.1 ciphertext (by omega)
  obtain ⟨bytes, hbytes, hb⟩ := @extendFromSlice_of_lt output tag (by
    rw [ho, List.length_append]
    omega)
  refine ⟨bytes, ?_, ?_⟩
  · simp only [complete, hencrypted, houtput, hbytes, ok_bind]
  · rw [hb, ho, List.append_assoc]

/-- A header tells where it ends, whatever follows it. -/
theorem headerOf_inj {keyId keyId' : Text} {nonce nonce' : Nonce} {rest rest' : List UInt8}
    (hvalid : ValidKeyId keyId) (hvalid' : ValidKeyId keyId')
    (h : headerOf keyId nonce ++ rest = headerOf keyId' nonce' ++ rest') :
    keyId = keyId' ∧ nonce = nonce' ∧ rest = rest' := by
  have hshort {keyId : Text} (hvalid : ValidKeyId keyId) :
      (UInt8.ofNat keyId.bytes.length).toNat = keyId.bytes.length :=
    UInt8.toNat_ofNat_of_lt' (Nat.lt_of_le_of_lt hvalid.2.1 (by decide))
  rw [headerOf, headerOf, List.append_assoc, List.append_assoc, List.append_cancel_left_eq, List.cons_append,
    List.cons_append, List.append_assoc, List.append_assoc] at h
  obtain ⟨hbyte, htail⟩ := List.cons.inj h
  have hlength := congrArg UInt8.toNat hbyte
  rw [hshort hvalid, hshort hvalid'] at hlength
  obtain ⟨hnonce, hrest⟩ := List.append_inj htail (nonce.length_eq.trans nonce'.length_eq.symm)
  obtain ⟨hkeyId, hrest⟩ := List.append_inj hrest hlength
  refine ⟨bytes_inj hkeyId, ?_, hrest⟩
  cases nonce
  cases nonce'
  cases hnonce
  rfl

theorem toBytes_eq_ok {n : Nat} {slice : List UInt8} {array : Bytes n} (h : toBytes n slice = .ok array) :
    array.items = slice := by
  rw [toBytes] at h
  split at h
  · rw [← Except.ok.inj h]
  · cases h

theorem parseKeyId_eq_ok {bytes : List UInt8} {keyId : Text} (h : parseKeyId bytes = .ok keyId) :
    keyId.bytes = bytes := by
  rw [parseKeyId] at h
  split at h
  next other hother =>
    rw [← Except.ok.inj h]
    exact decodeUtf8_eq_ok hother
  next => cases h

theorem parseEnvelope_eq_ok {bytes : List UInt8} {envelope : Envelope} (h : parseEnvelope bytes = .ok envelope) :
    ValidKeyId envelope.keyId ∧ envelope.header = headerOf envelope.keyId envelope.nonce ∧
      bytes = headerOf envelope.keyId envelope.nonce ++ envelope.ciphertext := by
  simp only [parseEnvelope, validateKeyId, bind_eq_ok, throwIf_eq_ok, not_not, not_or, not_lt] at h
  obtain ⟨-, ⟨hfixed, hmagic⟩, keyLen, hkeyLen, headerLen, hheaderLen, -, hlong, nonce, hnonce, keyId, hkeyId, -,
    hvalid, henvelope⟩ := h
  obtain rfl := Except.ok.inj henvelope
  obtain rfl := (usizeChecked_eq_ok.mp hheaderLen).2
  have hnonceBytes := toBytes_eq_ok hnonce
  have hkeyIdBytes := parseKeyId_eq_ok hkeyId
  rw [List.drop_take, Nat.add_sub_cancel_left] at hkeyIdBytes
  have hlength : keyId.bytes.length = keyLen.toNat := by
    rw [hkeyIdBytes, List.length_take, List.length_drop]
    omega
  have hbyte : UInt8.ofNat keyId.bytes.length = keyLen := by rw [hlength, UInt8.ofNat_toNat]
  obtain ⟨hlt, hget⟩ := List.getElem?_eq_some_iff.mp (getAt_eq_ok.mp hkeyLen)
  have htail : bytes.drop 9 = nonce.items ++ (keyId.bytes ++ bytes.drop (fixedHeaderLen + keyLen.toNat)) := by
    rw [hnonceBytes, hkeyIdBytes, ← List.drop_drop, List.take_append_drop,
      show fixedHeaderLen = 9 + nonceLen from rfl, ← List.drop_drop, List.take_append_drop]
  have hbytes : bytes = headerOf keyId nonce ++ bytes.drop (fixedHeaderLen + keyLen.toNat) := by
    calc bytes = bytes.take 8 ++ bytes.drop 8 := (List.take_append_drop 8 bytes).symm
      _ = header ++ (keyLen :: bytes.drop 9) := by rw [hmagic, List.drop_eq_getElem_cons hlt, hget]
      _ = headerOf keyId nonce ++ bytes.drop (fixedHeaderLen + keyLen.toNat) := by
        rw [htail, headerOf, hbyte, List.append_assoc, List.cons_append, List.append_assoc]
  refine ⟨hvalid, ?_, hbytes⟩
  conv_lhs => rw [hbytes]
  exact List.take_left' (by rw [length_headerOf, hlength])

theorem safe_parseEnvelope (bytes : List UInt8) : Safe (parseEnvelope bytes) := by
  refine (safe_throwIf (by rintro ⟨⟩)).bind fun _ hfixed => ?_
  have hlong : 8 < bytes.length := by
    have hfixed := not_lt.mp (not_or.mp (throwIf_eq_ok.mp hfixed)).1
    exact Nat.lt_of_lt_of_le (by decide) hfixed
  rw [getAt_eq_ok.mpr (List.getElem?_eq_getElem hlong), ok_bind]
  refine (safe_usizeChecked _).bind fun length _ => (safe_throwIf (by rintro ⟨⟩)).bind fun _ _ => ?_
  refine Safe.bind ?_ fun nonce _ => Safe.bind ?_ fun keyId _ => (safe_throwIf (by rintro ⟨⟩)).bind fun _ _ => safe_ok _
  · rw [toBytes]
    split
    · exact safe_ok _
    · exact safe_error (by rintro ⟨⟩)
  · rw [parseKeyId]
    split
    · exact safe_ok _
    · exact safe_error (by rintro ⟨⟩)

theorem safe_decrypt {T : Type} {codec : XChaCha20Codec T} (h : Opens codec) (bytes : List UInt8) :
    Safe (decrypt aead codec.keys.decryptionKey codec.context codec.maxPlaintextBytes bytes) := by
  refine (safe_parseEnvelope bytes).bind fun envelope hparse => (safe_throwIf (by rintro ⟨⟩)).bind fun _ _ => ?_
  obtain ⟨hvalid, hheader, -⟩ := parseEnvelope_eq_ok hparse
  have hfits : ¬ 2 ^ 63 ≤ envelope.header.length + codec.context.items.length := by
    rw [hheader, length_headerOf]
    have hid := hvalid.2.1
    have hroom := h.fits
    omega
  rw [throwIf_of_not hfits, ok_bind]
  refine (h.keys _).bind fun key _ => ?_
  split
  · exact safe_error (by rintro ⟨⟩)
  · exact safe_ok _

theorem decrypt_eq_ok {decryptionKey : Text → Result Key} {bytes plaintext : List UInt8}
    (h : decrypt aead decryptionKey context maxPlaintextBytes bytes = .ok plaintext) :
    ∃ envelope key, parseEnvelope bytes = .ok envelope ∧ decryptionKey envelope.keyId = .ok key ∧
      aead.decrypt key envelope.nonce (envelope.header ++ context.items) envelope.ciphertext = some plaintext := by
  simp only [decrypt, bind_eq_ok] at h
  obtain ⟨envelope, hparse, -, -, -, -, key, hkey, hrest⟩ := h
  refine ⟨envelope, key, hparse, hkey, ?_⟩
  split at hrest
  next => cases hrest
  next other hother => rw [hother, Except.ok.inj hrest]

theorem decrypt_of_asks (hideal : Ideal aead (Queried calls)) {call : Call} (hcall : call ∈ calls)
    {raw bytes : Vec UInt8} (hraw : call.codec.inner.encode call.value = .ok raw)
    (hbytes : call.encode aead = .ok bytes) (hkeys : Consistent call.codec.keys) :
    decrypt aead call.codec.keys.decryptionKey call.codec.context call.codec.maxPlaintextBytes bytes.items =
      .ok raw.items := by
  rw [Call.encode_eq] at hbytes
  obtain ⟨⟨front, query⟩, hrequest, hcomplete⟩ := bind_eq_ok.mp hbytes
  have hasked := hrequest
  rw [Call.request, hraw, ok_bind] at hasked
  obtain ⟨key, nonce, hasks, hfront, rfl⟩ := request_eq_ok hasked
  obtain ⟨ciphertext, tag, hencrypted, hitems⟩ := complete_eq_ok hcomplete
  obtain ⟨hc, ht⟩ := hideal.lengths _ _ _ hencrypted
  have hopens := hideal.opens _ _ _ ⟨call, hcall, front, hrequest⟩ hencrypted
  have hlength : (ciphertext ++ tag).length = raw.items.length + tagLen := by rw [List.length_append, hc, ht]
  have hparse : parseEnvelope bytes.items = .ok ⟨headerOf key.id nonce, key.id, nonce, ciphertext ++ tag⟩ := by
    rw [hitems, hfront]
    exact parseEnvelope_headerOf hasks.valid nonce (by rw [hlength]; exact Nat.le_add_left _ _)
  have hlimits : ¬ (raw.items.length + tagLen < tagLen ∨
      call.codec.maxPlaintextBytes < raw.items.length + tagLen - tagLen) := by
    have := hasks.admitted
    omega
  simp only [decrypt, hparse, ok_bind, hlength, throwIf_of_not hlimits, throwIf_of_not (Nat.not_le.mpr hasks.aadFits),
    hkeys key hasks.active, hopens]

theorem encode_of_asks (hideal : Ideal aead (Queried calls)) {call : Call} {raw : Vec UInt8} {key : EncryptionKey}
    {nonce : Nonce} (hraw : call.codec.inner.encode call.value = .ok raw)
    (hasks : Asks call.codec.keys.activeKey call.codec.fill call.codec.context call.codec.maxPlaintextBytes raw key
      nonce) (hmessage : raw.items.length ≤ aead.maxMessage) : ∃ bytes, call.encode aead = .ok bytes := by
  obtain ⟨⟨front, query⟩, hasked⟩ := request_of_asks hasks
  obtain ⟨other, nonce', hasks', hfront, hquery⟩ := request_eq_ok hasked
  have hplaintext : query.plaintext = raw.items := by rw [hquery]
  obtain ⟨⟨ciphertext, tag⟩, hencrypted⟩ := hideal.encrypts query (by rwa [hplaintext])
  obtain ⟨hc, ht⟩ := hideal.lengths _ _ _ hencrypted
  rw [hplaintext] at hc
  obtain ⟨bytes, hbytes, -⟩ := @complete_of_output aead (front, query) ciphertext tag hencrypted (by
    rw [hc, ht, hfront, ← Nat.add_assoc]
    exact hasks'.outputFits)
  refine ⟨bytes, ?_⟩
  rw [Call.encode_eq, Call.request, hraw, ok_bind, hasked, ok_bind, hbytes]

/-- Whatever is decrypted has been encrypted in one of the calls. -/
theorem makes_of_decrypt (hideal : Ideal aead (Queried calls)) {decryptionKey : Text → Result Key}
    {bytes plaintext : List UInt8}
    (h : decrypt aead decryptionKey context maxPlaintextBytes bytes = .ok plaintext) :
    ∃ call ∈ calls, ∃ (key : EncryptionKey) (raw : Vec UInt8), call.Makes aead key context bytes ∧
      (∃ envelope, parseEnvelope bytes = .ok envelope ∧ envelope.keyId = key.id) ∧
      decryptionKey key.id = .ok key.bytes ∧ call.codec.inner.encode call.value = .ok raw ∧ raw.items = plaintext := by
  obtain ⟨envelope, opening, hparse, hopening, hdecrypted⟩ := decrypt_eq_ok h
  obtain ⟨hvalid, hheader, hbytes⟩ := parseEnvelope_eq_ok hparse
  obtain ⟨query, ciphertext, tag, ⟨call, hcall, front, hrequest⟩, hencrypted, hquery, hmessage⟩ :=
    hideal.authentic _ _ _ _ _ hdecrypted
  have hasked := hrequest
  rw [Call.request] at hasked
  obtain ⟨raw, hraw, hasked⟩ := bind_eq_ok.mp hasked
  obtain ⟨key, nonce, hasks, hfront, hsame⟩ := request_eq_ok hasked
  obtain ⟨hkeyBytes, hnonce, haad, hplaintext⟩ := Query.mk.inj (hsame.symm.trans hquery)
  rw [hheader] at haad
  obtain ⟨hid, -, hcontext⟩ := headerOf_inj hasks.valid hvalid haad
  obtain ⟨hc, ht⟩ := hideal.lengths _ _ _ hencrypted
  have hlength : query.plaintext = raw.items := by rw [hsame]
  rw [hlength] at hc
  obtain ⟨made, hmade, hitems⟩ := @complete_of_output aead (front, query) ciphertext tag hencrypted (by
    rw [hc, ht, hfront, ← Nat.add_assoc]
    exact hasks.outputFits)
  refine ⟨call, hcall, key, raw, ⟨hasks.active, Vec.ext hcontext, made, ?_, ?_⟩, ⟨envelope, hparse, hid.symm⟩, ?_, hraw,
    hplaintext⟩
  · rw [Call.encode_eq, hrequest, ok_bind, hmade]
  · rw [hitems, hfront, hid, hnonce, hbytes, hmessage]
  · rw [hid, hopening, hkeyBytes]

/-- The cipher, but only what it has been asked to encrypt can be decrypted. -/
def recording (aead : Aead) (queries : List Query) : Aead :=
  { aead with
    decrypt key nonce aad message :=
      (queries.find? fun query => decide (query.key = key ∧ query.nonce = nonce ∧ query.aad = aad ∧
        (query.output aead).map (fun output => output.1 ++ output.2) = some message)).map Query.plaintext }

theorem recording_ideal (haead : aead.Inverts) (queries : List Query) :
    Ideal (recording aead queries) (· ∈ queries) where
  encrypts query h := haead.encrypts _ _ _ _ h
  lengths query ciphertext tag h := haead.lengths _ _ _ _ _ _ h
  opens query ciphertext tag hmem h := by
    have houtput : query.output aead = some (ciphertext, tag) := h
    cases hfound : queries.find? fun other => decide (other.key = query.key ∧ other.nonce = query.nonce ∧
        other.aad = query.aad ∧
        (other.output aead).map (fun output => output.1 ++ output.2) = some (ciphertext ++ tag)) with
    | none =>
        have hnot := List.find?_eq_none.mp hfound query hmem
        simp [houtput] at hnot
    | some other =>
        have hsome := List.find?_some hfound
        obtain ⟨hkey, hnonce, haad, hother⟩ := of_decide_eq_true hsome
        obtain ⟨⟨ciphertext', tag'⟩, hencrypted, hsame⟩ := Option.map_eq_some_iff.mp hother
        have hopens := haead.opens _ _ _ _ _ _ houtput
        have hopens' := haead.opens _ _ _ _ _ _ hencrypted
        rw [hkey, hnonce, haad, hsame, hopens, Option.some.injEq] at hopens'
        simp only [recording, hfound, Option.map_some, ← hopens']
  authentic key nonce aad message plaintext h := by
    obtain ⟨query, hfound, rfl⟩ := Option.map_eq_some_iff.mp h
    have hsome := List.find?_some hfound
    obtain ⟨rfl, rfl, rfl, hquery⟩ := of_decide_eq_true hsome
    obtain ⟨⟨ciphertext, tag⟩, hencrypted, rfl⟩ := Option.map_eq_some_iff.mp hquery
    exact ⟨query, ciphertext, tag, List.mem_of_find?_eq_some hfound, hencrypted, rfl, rfl⟩

/-- With an ideal cipher an envelope is bound to its header and to the context. -/
theorem envelope_bound (hideal : Ideal aead (Queried calls)) :
    (∀ (keyId keyId' : Text) (nonce nonce' : Nonce) (context context' : List UInt8),
      ValidKeyId keyId → ValidKeyId keyId' → headerOf keyId nonce ++ context = headerOf keyId' nonce' ++ context' →
      keyId = keyId' ∧ nonce = nonce' ∧ context = context') ∧
    (∀ call ∈ calls, call.codec.inner.RoundTrips → Consistent call.codec.keys →
      (∀ bytes, call.encode aead = .ok bytes → (call.codec.toCodec aead).decode bytes.items = .ok call.value) ∧
      ∀ raw key nonce, call.codec.inner.encode call.value = .ok raw →
        Asks call.codec.keys.activeKey call.codec.fill call.codec.context call.codec.maxPlaintextBytes raw key nonce →
        raw.items.length ≤ aead.maxMessage → ∃ bytes, call.encode aead = .ok bytes) ∧
    ∀ (T : Type) (codec : XChaCha20Codec T) (envelope : List UInt8),
      (∀ value, (codec.toCodec aead).decode envelope = .ok value →
        ∃ call ∈ calls, ∃ (key : EncryptionKey) (raw : Vec UInt8), call.Makes aead key codec.context envelope ∧
          (∃ parsed, parseEnvelope envelope = .ok parsed ∧ parsed.keyId = key.id) ∧
          codec.keys.decryptionKey key.id = .ok key.bytes ∧ call.codec.inner.encode call.value = .ok raw ∧
          codec.inner.decode raw.items = .ok value) ∧
      ((∀ call ∈ calls, ∀ key, codec.keys.decryptionKey key.id = .ok key.bytes →
        ¬ call.Makes aead key codec.context envelope) →
        ∃ e, (codec.toCodec aead).decode envelope = .error e ∧ (Opens codec → e ≠ .panicked)) := by
  refine ⟨fun _ _ _ _ _ _ hvalid hvalid' h => headerOf_inj hvalid hvalid' h, fun call hcall hinner hkeys => ⟨?_, ?_⟩,
    fun T codec envelope => ?_⟩
  · intro bytes hbytes
    have hencode := hbytes
    rw [Call.encode, XChaCha20Codec.toCodec] at hencode
    obtain ⟨raw, hraw, -⟩ := bind_eq_ok.mp hencode
    rw [XChaCha20Codec.toCodec]
    change _ >>= _ = _
    rw [decrypt_of_asks hideal hcall hraw hbytes hkeys, ok_bind]
    exact hinner _ _ hraw
  · intro raw key nonce hraw hasks hmessage
    exact encode_of_asks hideal hraw hasks hmessage
  · have hmakes (value : T) (hvalue : (codec.toCodec aead).decode envelope = .ok value) :
        ∃ call ∈ calls, ∃ (key : EncryptionKey) (raw : Vec UInt8), call.Makes aead key codec.context envelope ∧
          (∃ parsed, parseEnvelope envelope = .ok parsed ∧ parsed.keyId = key.id) ∧
          codec.keys.decryptionKey key.id = .ok key.bytes ∧ call.codec.inner.encode call.value = .ok raw ∧
          codec.inner.decode raw.items = .ok value := by
      obtain ⟨plaintext, hplaintext, hdecode⟩ := bind_eq_ok.mp hvalue
      obtain ⟨call, hcall, key, raw, hmade, hparsed, hkey, hraw, rfl⟩ := makes_of_decrypt hideal hplaintext
      exact ⟨call, hcall, key, raw, hmade, hparsed, hkey, hraw, hdecode⟩
    refine ⟨hmakes, fun hnone => ?_⟩
    cases hplaintext : decrypt aead codec.keys.decryptionKey codec.context codec.maxPlaintextBytes envelope with
    | ok plaintext =>
        obtain ⟨call, hcall, key, raw, hmade, -, hkey, -⟩ := makes_of_decrypt hideal hplaintext
        exact absurd hmade (hnone call hcall key hkey)
    | error e =>
        have hdecode : (codec.toCodec aead).decode envelope = .error e := by
          change decrypt _ _ _ _ _ >>= _ = _
          rw [hplaintext]
          rfl
        refine ⟨e, hdecode, ?_⟩
        rintro hopens rfl
        exact safe_decrypt hopens envelope hplaintext

def archiveKey : StaticKey where
  key := ⟨⟨"archive", by decide⟩, ⟨List.replicate 32 3, rfl⟩⟩
  valid := by decide +kernel

def archiveNonce : Nonce := ⟨List.replicate 24 5, rfl⟩

def archivedValue : Vec UInt8 := ⟨[4, 5, 6], by decide⟩

def archived : Call where
  T := Vec UInt8
  codec := ⟨bytesCodec, archiveKey.keys, .ok archiveNonce, ⟨[0x61, 0x72], by decide⟩, 16, by decide, by decide⟩
  value := archivedValue

theorem archived_asks : Asks archived.codec.keys.activeKey archived.codec.fill archived.codec.context 16
    archivedValue archiveKey.key archiveNonce := by
  have hid : archiveKey.key.id.bytes.length = 7 := by decide +kernel
  refine ⟨rfl, rfl, archiveKey.valid, by decide, ?_, ?_⟩
  · rw [length_headerOf, hid]
    decide
  · rw [length_headerOf, hid]
    decide

/-- The envelope can be decrypted with its context, and with no other. -/
theorem envelope_bound_archived : ∃ queries bytes, archived.encode (recording cipher queries) = .ok bytes ∧
    (archived.codec.toCodec (recording cipher queries)).decode bytes.items = .ok archived.value ∧
    ∀ codec : XChaCha20Codec (Vec UInt8), codec.context ≠ archived.codec.context → Opens codec →
      ∃ e, e ≠ .panicked ∧ (codec.toCodec (recording cipher queries)).decode bytes.items = .error e := by
  obtain ⟨⟨front, query⟩, hasked⟩ := request_of_asks archived_asks
  have hraw : archived.codec.inner.encode archived.value = .ok archivedValue := rfl
  have hrequest : archived.request = .ok (front, query) := by
    rw [Call.request, hraw, ok_bind]
    exact hasked
  have hideal : Ideal (recording cipher [query]) (Queried [archived]) := by
    have hqueried : Queried [archived] = (· ∈ [query]) := by
      funext other
      apply propext
      simp only [Queried, List.mem_singleton, exists_eq_left, hrequest, Except.ok.injEq, Prod.mk.injEq,
        exists_and_right, exists_eq', true_and]
      exact eq_comm
    rw [hqueried]
    exact recording_ideal cipher_inverts [query]
  obtain ⟨-, hround, hbound⟩ := envelope_bound hideal
  obtain ⟨hdecode, hencode⟩ := hround archived List.mem_cons_self bytesCodec_roundTrips fun key hkey => by
    obtain rfl : archiveKey.key = key := Except.ok.inj hkey
    exact archiveKey.decryptionKey_id
  have hmessage : archived.value.items.length ≤ XChaCha.maxMessage := by decide
  obtain ⟨bytes, hbytes⟩ := hencode _ _ _ rfl archived_asks hmessage
  refine ⟨[query], bytes, hbytes, hdecode bytes hbytes, fun codec hcontext hopens => ?_⟩
  obtain ⟨e, hrefused, hne⟩ := (hbound _ codec bytes.items).2 fun call hcall key _ hmade => by
    obtain rfl := List.mem_singleton.mp hcall
    exact hcontext hmade.bound.symm
  exact ⟨e, hne hopens, hrefused⟩

end WeavatrixMemory.Codecs.Binding
