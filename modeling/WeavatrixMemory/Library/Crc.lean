import Mathlib.Algebra.Order.Ring.Nat
import Mathlib.Data.List.TakeDrop
import Mathlib.Logic.Function.Iterate
import Mathlib.Tactic.Common

namespace Crc

variable {w : Nat} {poly s t x : BitVec w} {bits bits' : List Bool}

/-- A round of a reflected register: the lowest bit goes out, and the polynomial is added if it was set. -/
def shift (poly s : BitVec w) : BitVec w := (s >>> 1) ^^^ if s.getLsbD 0 then poly else 0

def shifts (poly : BitVec w) (rounds : Nat) (s : BitVec w) : BitVec w := Nat.iterate (shift poly) rounds s

def word : List Bool → BitVec w
  | [] => 0
  | bit :: bits => (BitVec.ofBool bit).setWidth w ^^^ word bits <<< 1

def feed (poly s : BitVec w) (bit : Bool) : BitVec w := shift poly (s ^^^ (BitVec.ofBool bit).setWidth w)

def feedAll (poly s : BitVec w) (bits : List Bool) : BitVec w := bits.foldl (feed poly) s

theorem getLsbD_shift (poly s : BitVec w) (i : Nat) :
    (shift poly s).getLsbD i = (s.getLsbD (i + 1) ^^ (s.getLsbD 0 && poly.getLsbD i)) := by
  rw [shift, BitVec.getLsbD_xor, BitVec.getLsbD_ushiftRight, Nat.add_comm 1 i]
  cases s.getLsbD 0 <;> simp

theorem shift_xor (poly s t : BitVec w) : shift poly (s ^^^ t) = shift poly s ^^^ shift poly t := by
  apply BitVec.eq_of_getLsbD_eq
  intro i _
  simp only [getLsbD_shift, BitVec.getLsbD_xor, Bool.and_xor_distrib_right, Bool.xor_assoc]
  rw [Bool.xor_left_comm (t.getLsbD (i + 1))]

/-- If the polynomial has the highest bit, a round can be undone: the highest bit tells whether it was added. -/
theorem shift_inj (hpoly : poly.getLsbD (w - 1) = true) (h : shift poly s = shift poly t) : s = t := by
  have hbit (i : Nat) : (s.getLsbD (i + 1) ^^ (s.getLsbD 0 && poly.getLsbD i)) =
      (t.getLsbD (i + 1) ^^ (t.getLsbD 0 && poly.getLsbD i)) := by
    rw [← getLsbD_shift, h, getLsbD_shift]
  have hlow : s.getLsbD 0 = t.getLsbD 0 := by
    have hlast := hbit (w - 1)
    rw [BitVec.getLsbD_of_ge s _ (by omega), BitVec.getLsbD_of_ge t _ (by omega), hpoly] at hlast
    simpa using hlast
  apply BitVec.eq_of_getLsbD_eq
  intro i _
  cases i with
  | zero => exact hlow
  | succ i => simpa [hlow] using hbit i

theorem shift_shiftLeft (h : x.getLsbD (w - 1) = false) : shift poly (x <<< 1) = x := by
  apply BitVec.eq_of_getLsbD_eq
  intro i hi
  rw [getLsbD_shift, BitVec.getLsbD_shiftLeft, BitVec.getLsbD_shiftLeft]
  by_cases hlast : i + 1 < w
  · simp [hlast]
  · obtain rfl : i = w - 1 := by omega
    simp [h]

theorem shifts_succ (poly s : BitVec w) (rounds : Nat) :
    shifts poly (rounds + 1) s = shifts poly rounds (shift poly s) :=
  rfl

theorem shifts_xor (poly s t : BitVec w) (rounds : Nat) :
    shifts poly rounds (s ^^^ t) = shifts poly rounds s ^^^ shifts poly rounds t := by
  induction rounds generalizing s t with
  | zero => rfl
  | succ rounds ih => rw [shifts_succ, shift_xor, ih, ← shifts_succ, ← shifts_succ]

theorem shifts_inj (hpoly : poly.getLsbD (w - 1) = true) {rounds : Nat}
    (h : shifts poly rounds s = shifts poly rounds t) : s = t :=
  Function.Injective.iterate (fun _ _ => shift_inj hpoly) rounds h

theorem shifts_shiftLeft {n : Nat} (hn : n ≤ w) (h : ∀ i, w - n ≤ i → x.getLsbD i = false) :
    shifts poly n (x <<< n) = x := by
  induction n with
  | zero => simp [shifts]
  | succ n ih =>
      have hlast : (x <<< n).getLsbD (w - 1) = false := by
        rw [BitVec.getLsbD_shiftLeft, h (w - 1 - n) (by omega), Bool.and_false]
      rw [shifts_succ, BitVec.shiftLeft_add, shift_shiftLeft hlast]
      exact ih (by omega) fun i hi => h i (by omega)

theorem getLsbD_word (bits : List Bool) (i : Nat) :
    (word bits : BitVec w).getLsbD i = (decide (i < w) && bits[i]?.getD false) := by
  induction bits generalizing i with
  | nil => simp [word]
  | cons bit bits ih =>
      rw [word, BitVec.getLsbD_xor, BitVec.getLsbD_setWidth, BitVec.getLsbD_shiftLeft, ih, BitVec.getLsbD_ofBool]
      cases i with
      | zero => simp
      | succ i =>
          by_cases hi : i + 1 < w
          · simp [hi, show i < w by omega]
          · simp [hi]

theorem word_inj (hlength : bits.length = bits'.length) (hfits : bits.length ≤ w)
    (h : (word bits : BitVec w) = word bits') : bits = bits' := by
  apply List.ext_getElem hlength
  intro i hi hi'
  have hbit : (word bits : BitVec w).getLsbD i = (word bits' : BitVec w).getLsbD i := by rw [h]
  rw [getLsbD_word, getLsbD_word] at hbit
  simpa [hi, hi', show i < w by omega] using hbit

theorem feedAll_eq (hfits : bits.length ≤ w) : feedAll poly s bits = shifts poly bits.length (s ^^^ word bits) := by
  induction bits generalizing s with
  | nil => simp [feedAll, shifts, word]
  | cons bit bits ih =>
      rw [List.length_cons] at hfits
      have hlast : (word bits : BitVec w).getLsbD (w - 1) = false := by
        rw [getLsbD_word, List.getElem?_eq_none (by omega), Option.getD_none, Bool.and_false]
      have hrest : feedAll poly s (bit :: bits) = feedAll poly (feed poly s bit) bits := rfl
      have hnext : feed poly s bit ^^^ word bits = shift poly (s ^^^ word (bit :: bits)) := by
        rw [word, ← BitVec.xor_assoc, shift_xor _ _ (word bits <<< 1), shift_shiftLeft hlast, feed]
      rw [hrest, ih (by omega), hnext, List.length_cons, shifts_succ]

/-- The register is shifted by several bits at a time, with what goes out looked up in a table. -/
theorem feedAll_table (hfits : bits.length ≤ w) : feedAll poly s bits =
    (s >>> bits.length) ^^^ shifts poly bits.length (((s ^^^ word bits).setWidth bits.length).setWidth w) := by
  obtain ⟨n, hn⟩ : ∃ n, bits.length = n := ⟨_, rfl⟩
  rw [hn] at hfits ⊢
  have hsplit : s ^^^ word bits = ((s ^^^ word bits).setWidth n).setWidth w ^^^ (s >>> n) <<< n := by
    apply BitVec.eq_of_getLsbD_eq
    intro i hi
    simp only [BitVec.getLsbD_xor, BitVec.getLsbD_setWidth, BitVec.getLsbD_shiftLeft, BitVec.getLsbD_ushiftRight]
    by_cases hlow : i < n
    · simp [hi, hlow]
    · rw [getLsbD_word, List.getElem?_eq_none (by omega)]
      simp [hi, hlow, show n + (i - n) = i by omega]
  have hhigh : shifts poly n ((s >>> n) <<< n) = s >>> n := by
    apply shifts_shiftLeft hfits
    intro i hi
    rw [BitVec.getLsbD_ushiftRight, BitVec.getLsbD_of_ge _ _ (by omega)]
  rw [feedAll_eq (hn.trans_le hfits), hn, hsplit, shifts_xor, hhigh, ← hsplit, BitVec.xor_comm]

theorem feedAll_append (poly s : BitVec w) (bits bits' : List Bool) :
    feedAll poly s (bits ++ bits') = feedAll poly (feedAll poly s bits) bits' := List.foldl_append

theorem feedAll_inj (hpoly : poly.getLsbD (w - 1) = true) (h : feedAll poly s bits = feedAll poly t bits) : s = t := by
  induction bits generalizing s t with
  | nil => exact h
  | cons bit bits ih => exact BitVec.xor_left_inj _ |>.mp (shift_inj hpoly (ih h))

structure DifferWithin {α : Type} (start length : Nat) (xs ys : List α) : Prop where
  length_eq : xs.length = ys.length
  within : ∀ i, xs[i]? ≠ ys[i]? → start ≤ i ∧ i < start + length

theorem differWithin_iff {α : Type} {start length : Nat} {xs ys : List α} : DifferWithin start length xs ys ↔
    xs.length = ys.length ∧ ∀ i < xs.length, xs[i]? ≠ ys[i]? → start ≤ i ∧ i < start + length := by
  constructor
  · intro h
    exact ⟨h.length_eq, fun i _ => h.within i⟩
  · rintro ⟨hlength, hwithin⟩
    refine ⟨hlength, fun i hdiffer => ?_⟩
    by_cases hi : i < xs.length
    · exact hwithin i hi hdiffer
    · refine absurd ?_ hdiffer
      rw [List.getElem?_eq_none (not_lt.mp hi), List.getElem?_eq_none (hlength ▸ not_lt.mp hi)]

instance decidableDifferWithin {α : Type} [DecidableEq α] (start length : Nat) (xs ys : List α) :
    Decidable (DifferWithin start length xs ys) := decidable_of_iff' _ differWithin_iff

/-- A change of at most as many bits in a row as the register has never goes unseen. -/
theorem feedAll_ne_of_differWithin (hpoly : poly.getLsbD (w - 1) = true) {start : Nat}
    (h : DifferWithin start w bits bits') (hne : bits ≠ bits') (s : BitVec w) :
    feedAll poly s bits ≠ feedAll poly s bits' := by
  have hfront : bits.take start = bits'.take start := by
    apply List.ext_getElem?
    intro i
    rw [List.getElem?_take, List.getElem?_take]
    split
    · by_contra hdiffer
      have hwithin := h.within i hdiffer
      omega
    · rfl
  have hback : (bits.drop start).drop w = (bits'.drop start).drop w := by
    apply List.ext_getElem?
    intro i
    simp only [List.drop_drop, List.getElem?_drop]
    by_contra hdiffer
    have hwithin := h.within _ hdiffer
    omega
  have hsplit (xs : List Bool) : xs.take start ++ ((xs.drop start).take w ++ (xs.drop start).drop w) = xs := by
    rw [List.take_append_drop, List.take_append_drop]
  intro heq
  rw [← hsplit bits, ← hsplit bits', hfront, hback, feedAll_append, feedAll_append, feedAll_append,
    feedAll_append] at heq
  have hmiddle := feedAll_inj hpoly heq
  have hlength : ((bits.drop start).take w).length = ((bits'.drop start).take w).length := by
    simp only [List.length_take, List.length_drop, h.length_eq]
  have hfits : ((bits.drop start).take w).length ≤ w := List.length_take_le _ _
  rw [feedAll_eq hfits, feedAll_eq (hlength.ge.trans hfits), hlength] at hmiddle
  have hwindow := word_inj hlength hfits (BitVec.xor_right_inj _ |>.mp (shifts_inj hpoly hmiddle))
  apply hne
  rw [← hsplit bits, ← hsplit bits', hfront, hwindow, hback]

end Crc
