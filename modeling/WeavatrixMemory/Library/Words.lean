import Mathlib.Algebra.Order.Ring.Nat
import Mathlib.Tactic.Common

namespace Words

theorem getLsbD_sshiftRight_last (x : BitVec 64) {i : Nat} (hi : i < 64) :
    (x.sshiftRight 63).getLsbD i = x.getLsbD 63 := by
  rw [BitVec.getLsbD_sshiftRight, decide_eq_false (by omega), Bool.not_false, Bool.true_and]
  split
  · rw [show 63 + i = 63 by omega]
  · rw [BitVec.msb_eq_getLsbD_last]

theorem getLsbD_neg_low_bit (x : BitVec 64) {i : Nat} (hi : i < 64) :
    (-(x &&& 1#64)).getLsbD i = x.getLsbD 0 := by
  have hand : x &&& 1#64 = if x.getLsbD 0 then 1#64 else 0#64 := by
    apply BitVec.eq_of_getLsbD_eq
    intro j hj
    rw [BitVec.getLsbD_and, BitVec.getLsbD_one]
    by_cases h0 : j = 0
    · subst j
      cases x.getLsbD 0 <;> rfl
    · cases x.getLsbD 0 <;> simp [h0]
  rw [hand]
  cases x.getLsbD 0 with
  | false => simp
  | true =>
      rw [if_pos rfl, BitVec.neg_one_eq_allOnes, BitVec.getLsbD_allOnes]
      exact decide_eq_true hi

theorem zigzag_inverse (x : BitVec 64) :
    (x <<< 1 ^^^ x.sshiftRight 63) >>> 1 ^^^ -((x <<< 1 ^^^ x.sshiftRight 63) &&& 1#64) = x := by
  apply BitVec.eq_of_getLsbD_eq
  intro i hi
  have hzero := getLsbD_sshiftRight_last x (show 0 < 64 by omega)
  rw [BitVec.getLsbD_xor, getLsbD_neg_low_bit _ hi, BitVec.getLsbD_ushiftRight, BitVec.getLsbD_xor,
    BitVec.getLsbD_xor, BitVec.getLsbD_shiftLeft, BitVec.getLsbD_shiftLeft, hzero]
  by_cases hl : i = 63
  · subst i
    have hout : (x.sshiftRight 63).getLsbD (1 + 63) = false := BitVec.getLsbD_of_ge _ _ (by omega)
    rw [hout]
    simp
  · have hsign := getLsbD_sshiftRight_last x (show 1 + i < 64 by omega)
    rw [hsign, decide_eq_true (show 1 + i < 64 by omega), decide_eq_false (show ¬ 1 + i < 1 by omega),
      Nat.add_sub_cancel_left]
    simp

theorem zigzag_surjective (y : BitVec 64) :
    (y >>> 1 ^^^ -(y &&& 1#64)) <<< 1 ^^^ (y >>> 1 ^^^ -(y &&& 1#64)).sshiftRight 63 = y := by
  obtain ⟨x, hx⟩ : ∃ x, x = y >>> 1 ^^^ -(y &&& 1#64) := ⟨_, rfl⟩
  have hbit : ∀ i, i < 64 → x.getLsbD i = (y.getLsbD (1 + i) ^^ y.getLsbD 0) := by
    intro i hi
    rw [hx, BitVec.getLsbD_xor, getLsbD_neg_low_bit _ hi, BitVec.getLsbD_ushiftRight]
  have hsign : x.getLsbD 63 = y.getLsbD 0 := by
    rw [hbit 63 (by omega), BitVec.getLsbD_of_ge y (1 + 63) (by omega), Bool.false_xor]
  rw [← hx]
  apply BitVec.eq_of_getLsbD_eq
  intro i hi
  rw [BitVec.getLsbD_xor, getLsbD_sshiftRight_last x hi, BitVec.getLsbD_shiftLeft, hsign]
  by_cases h0 : i = 0
  · subst i
    simp
  · rw [hbit (i - 1) (by omega), decide_eq_true hi, decide_eq_false (show ¬ i < 1 by omega),
      show 1 + (i - 1) = i by omega]
    simp

theorem toNat_low_seven (b : UInt8) : (b &&& 0x7f).toNat = b.toNat % 2 ^ 7 := by
  rw [UInt8.toNat_and]
  exact Nat.and_two_pow_sub_one_eq_mod b.toNat 7

theorem toNat_set_high (b : UInt8) : (b &&& 0x7f ||| 0x80).toNat = b.toNat % 2 ^ 7 + 2 ^ 7 := by
  have hlt : b.toNat % 2 ^ 7 < 2 ^ 7 := Nat.mod_lt _ (by decide)
  rw [UInt8.toNat_or, toNat_low_seven, Nat.or_comm]
  exact (Nat.two_pow_add_eq_or_of_lt hlt 1).symm.trans (Nat.add_comm _ _)

theorem high_bit_clear {b : UInt8} : b &&& 0x80 = 0 ↔ b.toNat < 2 ^ 7 := by
  have hbits : ∀ n < 2 ^ 8, n &&& 0x80 = 0 ↔ n < 2 ^ 7 := by decide +kernel
  rw [← UInt8.toNat_inj, UInt8.toNat_and]
  exact hbits b.toNat b.toNat_lt

theorem toNat_or_shiftLeft {acc : UInt64} {b : UInt8} {shift : Nat} (hacc : acc.toNat < 2 ^ shift)
    (hs : shift < 64) (hfit : b.toNat * 2 ^ shift < 2 ^ 64) :
    (acc ||| (b.toUInt64 <<< UInt64.ofNat shift)).toNat = acc.toNat + b.toNat * 2 ^ shift := by
  have hshift : (UInt64.ofNat shift).toNat = shift := UInt64.toNat_ofNat_of_lt' (hs.trans (by decide))
  rw [UInt64.toNat_or, UInt64.toNat_shiftLeft, hshift, Nat.mod_eq_of_lt hs, UInt8.toNat_toUInt64,
    Nat.shiftLeft_eq, Nat.mod_eq_of_lt hfit, Nat.or_comm, Nat.mul_comm,
    ← Nat.two_pow_add_eq_or_of_lt hacc, Nat.add_comm]

theorem low_seven_add_rest (v shift : Nat) :
    v % 2 ^ 7 * 2 ^ shift + v / 2 ^ 7 * 2 ^ (shift + 7) = v * 2 ^ shift := by
  rw [Nat.pow_add, Nat.mul_comm (2 ^ shift), ← Nat.mul_assoc, ← Nat.add_mul, Nat.mod_add_div']

def leBytes : Nat → Nat → List UInt8
  | 0, _ => []
  | size + 1, v => UInt8.ofNat v :: leBytes size (v / 2 ^ 8)

def leValue : List UInt8 → Nat
  | [] => 0
  | b :: rest => b.toNat + 2 ^ 8 * leValue rest

@[simp] theorem length_leBytes (size v : Nat) : (leBytes size v).length = size := by
  induction size generalizing v with
  | zero => rfl
  | succ size ih => rw [leBytes, List.length_cons, ih]

theorem leValue_leBytes {size v : Nat} (h : v < 2 ^ (8 * size)) : leValue (leBytes size v) = v := by
  induction size generalizing v with
  | zero =>
      rw [Nat.mul_zero, Nat.pow_zero, Nat.lt_one_iff] at h
      exact h.symm
  | succ size ih =>
      rw [Nat.mul_succ, Nat.pow_add] at h
      have hrest := ih (Nat.div_lt_of_lt_mul (h.trans_eq (Nat.mul_comm _ _)))
      rw [leBytes, leValue, hrest, UInt8.toNat_ofNat']
      exact Nat.mod_add_div v (2 ^ 8)

theorem leBytes_leValue (bytes : List UInt8) : leBytes bytes.length (leValue bytes) = bytes := by
  induction bytes with
  | nil => rfl
  | cons b rest ih =>
      have hlow : UInt8.ofNat (b.toNat + 2 ^ 8 * leValue rest) = b := by
        rw [← UInt8.toNat_inj, UInt8.toNat_ofNat', Nat.add_mul_mod_self_left]
        exact Nat.mod_eq_of_lt b.toNat_lt
      have hhigh : (b.toNat + 2 ^ 8 * leValue rest) / 2 ^ 8 = leValue rest := by
        rw [Nat.add_mul_div_left _ _ (by decide), Nat.div_eq_of_lt b.toNat_lt, Nat.zero_add]
      rw [List.length_cons, leValue, leBytes, hlow, hhigh, ih]

theorem leValue_lt (bytes : List UInt8) : leValue bytes < 2 ^ (8 * bytes.length) := by
  induction bytes with
  | nil => exact Nat.one_pos
  | cons b rest ih =>
      have hb := b.toNat_lt
      rw [leValue, List.length_cons, Nat.mul_succ, Nat.pow_add]
      omega

end Words
