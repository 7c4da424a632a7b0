import Mathlib.Algebra.Order.Ring.Nat
import Mathlib.Tactic.Common
import WeavatrixMemory.Library.Words

namespace XChaCha

open Words

def rotateLeft (x : UInt32) (n : UInt32) : UInt32 := (x <<< n) ||| (x >>> (32 - n))

def quarterRound (s : List UInt32) (a b c d : Nat) : List UInt32 :=
  let mix (s : List UInt32) (x y z : Nat) (n : UInt32) : List UInt32 :=
    let sum := s.getD x 0 + s.getD y 0
    (s.set x sum).set z (rotateLeft (s.getD z 0 ^^^ sum) n)
  mix (mix (mix (mix s a b d 16) c d b 12) a b d 8) c d b 7

def doubleRound (s : List UInt32) : List UInt32 :=
  let s := quarterRound (quarterRound (quarterRound (quarterRound s 0 4 8 12) 1 5 9 13) 2 6 10 14) 3 7 11 15
  quarterRound (quarterRound (quarterRound (quarterRound s 0 5 10 15) 1 6 11 12) 2 7 8 13) 3 4 9 14

def rounds (s : List UInt32) : List UInt32 := Nat.iterate doubleRound 10 s

def wordsOf (n : Nat) (bytes : List UInt8) : List UInt32 :=
  (List.range n).map fun i => UInt32.ofNat (leValue ((bytes.drop (4 * i)).take 4))

def constants : List UInt32 := [0x61707865, 0x3320646e, 0x79622d32, 0x6b206574]

def serialize (s : List UInt32) : List UInt8 := s.flatMap fun word => leBytes 4 word.toNat

/-- A block of the key stream, from a key of 32 bytes and a nonce of 12. -/
def block (key nonce : List UInt8) (counter : Nat) : List UInt8 :=
  let start := constants ++ wordsOf 8 key ++ UInt32.ofNat counter :: wordsOf 3 nonce
  serialize (List.zipWith (· + ·) (rounds start) start)

/-- The key that the first 16 bytes of a long nonce select. -/
def subkey (key nonce : List UInt8) : List UInt8 :=
  let final := rounds (constants ++ wordsOf 8 key ++ wordsOf 4 nonce)
  serialize (final.take 4 ++ final.drop 12)

def xorBlock (bytes stream : List UInt8) : List UInt8 := bytes.mapIdx fun i byte => byte ^^^ stream.getD i 0

/-- The bytes, exclusive-or the key stream from a counter on. -/
def xorStream (key nonce : List UInt8) : Nat → Nat → List UInt8 → List UInt8
  | 0, _, _ => []
  | n + 1, counter, bytes =>
      xorBlock (bytes.take 64) (block key nonce counter) ++ xorStream key nonce n (counter + 1) (bytes.drop 64)

def accumulate (r : Nat) : Nat → List UInt8 → Nat → Nat
  | 0, _, sum => sum
  | n + 1, bytes, sum =>
      if bytes = [] then sum
      else
        let part := bytes.take 16
        accumulate r n (bytes.drop 16) ((sum + leValue part + 2 ^ (8 * part.length)) * r % (2 ^ 130 - 5))

def poly1305 (key message : List UInt8) : List UInt8 :=
  let r := leValue (key.take 16) &&& 0x0ffffffc0ffffffc0ffffffc0fffffff
  leBytes 16 ((accumulate r message.length message 0 + leValue (key.drop 16)) % 2 ^ 128)

def padded (bytes : List UInt8) : List UInt8 :=
  bytes ++ List.replicate ((16 - bytes.length % 16) % 16) 0

def tagOf (key nonce aad ciphertext : List UInt8) : List UInt8 :=
  poly1305 ((block key nonce 0).take 32)
    (padded aad ++ padded ciphertext ++ leBytes 8 aad.length ++ leBytes 8 ciphertext.length)

def shortNonce (nonce : List UInt8) : List UInt8 := List.replicate 4 0 ++ nonce.drop 16

def maxMessage : Nat := 64 * (2 ^ 32 - 1) - 1

def encrypt (key nonce aad plaintext : List UInt8) : Option (List UInt8 × List UInt8) :=
  if plaintext.length ≤ maxMessage then
    let own := subkey key (nonce.take 16)
    let ciphertext := xorStream own (shortNonce nonce) (plaintext.length / 64 + 1) 1 plaintext
    some (ciphertext, tagOf own (shortNonce nonce) aad ciphertext)
  else none

def decrypt (key nonce aad message : List UInt8) : Option (List UInt8) :=
  if message.length < 16 then none
  else
    let own := subkey key (nonce.take 16)
    let ciphertext := message.take (message.length - 16)
    if tagOf own (shortNonce nonce) aad ciphertext = message.drop (message.length - 16) then
      some (xorStream own (shortNonce nonce) (ciphertext.length / 64 + 1) 1 ciphertext)
    else none

/-- The published test vector. -/
example : (encrypt ((List.range 32).map fun i => UInt8.ofNat (0x80 + i))
    ((List.range 24).map fun i => UInt8.ofNat (0x40 + i))
    [0x50, 0x51, 0x52, 0x53, 0xc0, 0xc1, 0xc2, 0xc3, 0xc4, 0xc5, 0xc6, 0xc7]
    (("Ladies and Gentlemen of the class of '99: If I could offer you only one tip for the future, " ++
      "sunscreen would be it.").toList.map fun c => UInt8.ofNat c.toNat)).map (·.2) =
    some [0xc0, 0x87, 0x59, 0x24, 0xc1, 0xc7, 0x98, 0x79, 0x47, 0xde, 0xaf, 0xd8, 0x78, 0x0a, 0xcf, 0x49] := by
  decide +kernel

theorem length_xorBlock (bytes stream : List UInt8) : (xorBlock bytes stream).length = bytes.length :=
  List.length_mapIdx

theorem xorBlock_xorBlock (bytes stream : List UInt8) : xorBlock (xorBlock bytes stream) stream = bytes := by
  rw [xorBlock, xorBlock, List.mapIdx_mapIdx]
  refine List.ext_getElem List.length_mapIdx fun i _ _ => ?_
  rw [List.getElem_mapIdx, Function.comp_apply, UInt8.xor_assoc, UInt8.xor_self, UInt8.xor_zero]

variable {key nonce aad : List UInt8}

theorem length_xorStream {n : Nat} (counter : Nat) {bytes : List UInt8} (h : bytes.length ≤ 64 * n) :
    (xorStream key nonce n counter bytes).length = bytes.length := by
  induction n generalizing counter bytes with
  | zero => exact (Nat.le_zero.mp h).symm
  | succ n ih =>
      have hrest : (bytes.drop 64).length ≤ 64 * n := by
        rw [List.length_drop]
        omega
      rw [xorStream, List.length_append, length_xorBlock, ih _ hrest, ← List.length_append, List.take_append_drop]

theorem xorStream_xorStream {n : Nat} (counter : Nat) {bytes : List UInt8} (h : bytes.length ≤ 64 * n) :
    xorStream key nonce n counter (xorStream key nonce n counter bytes) = bytes := by
  induction n generalizing counter bytes with
  | zero => exact (List.length_eq_zero_iff.mp (Nat.le_zero.mp h)).symm
  | succ n ih =>
      have hrest : (bytes.drop 64).length ≤ 64 * n := by
        rw [List.length_drop]
        omega
      have hlength := @length_xorStream key nonce n (counter + 1) _ hrest
      rw [xorStream, xorStream]
      generalize hb : xorStream key nonce n (counter + 1) (bytes.drop 64) = back at hlength ⊢
      have hfront := length_xorBlock (bytes.take 64) (block key nonce counter)
      generalize hf : xorBlock (bytes.take 64) (block key nonce counter) = front at hfront ⊢
      -- Either the first part is a whole block, or there is no second part.
      have hsplit : (front ++ back).take 64 = front ∧ (front ++ back).drop 64 = back := by
        rw [List.length_take] at hfront
        rw [List.length_drop] at hlength
        by_cases hlong : 64 ≤ bytes.length
        · have hsize : front.length = 64 := by omega
          exact ⟨List.take_left' hsize, List.drop_left' hsize⟩
        · have hback : back = [] := List.length_eq_zero_iff.mp (by omega)
          rw [hback, List.append_nil]
          exact ⟨List.take_of_length_le (by omega), List.drop_eq_nil_of_le (by omega)⟩
      rw [hsplit.1, hsplit.2, ← hf, xorBlock_xorBlock, ← hb, ih _ hrest, List.take_append_drop]

theorem encrypt_eq_some {plaintext ciphertext tag : List UInt8}
    (h : encrypt key nonce aad plaintext = some (ciphertext, tag)) :
    ciphertext = xorStream (subkey key (nonce.take 16)) (shortNonce nonce) (plaintext.length / 64 + 1) 1 plaintext ∧
      ciphertext.length = plaintext.length ∧
      tag = tagOf (subkey key (nonce.take 16)) (shortNonce nonce) aad ciphertext ∧ tag.length = 16 := by
  rw [encrypt] at h
  split at h
  next =>
    obtain ⟨rfl, rfl⟩ := Prod.mk.inj (Option.some.inj h)
    exact ⟨rfl, length_xorStream _ (by omega), rfl, length_leBytes 16 _⟩
  next => cases h

theorem decrypt_encrypt {plaintext ciphertext tag : List UInt8}
    (h : encrypt key nonce aad plaintext = some (ciphertext, tag)) :
    decrypt key nonce aad (ciphertext ++ tag) = some plaintext := by
  obtain ⟨hc, hlength, ht, htag⟩ := encrypt_eq_some h
  have hsize : (ciphertext ++ tag).length - 16 = ciphertext.length := by
    rw [List.length_append, htag, Nat.add_sub_cancel]
  have hlong : ¬ (ciphertext ++ tag).length < 16 := by
    rw [List.length_append]
    omega
  rw [decrypt, if_neg hlong, hsize, List.take_left, List.drop_left]
  dsimp only
  rw [if_pos ht.symm, hlength, hc, xorStream_xorStream _ (by omega)]

end XChaCha
