import Mathlib.Algebra.Order.Ring.Nat
import Mathlib.Tactic.Common

namespace Decimals

def padded (width n : Nat) : List Char := List.leftpad width '0' (Nat.toDigits 10 n)

def parseDigits (limit : Nat) : List Char → Nat → Option Nat
  | [], value => some value
  | c :: cs, value =>
      if c.isDigit ∧ 10 * value + (c.toNat - '0'.toNat) < limit then
        parseDigits limit cs (10 * value + (c.toNat - '0'.toNat))
      else none

def unsigned : List Char → List Char
  | [] => []
  | c :: cs => if c = '+' then cs else c :: cs

/-- A number without a sign, or with a plus sign. -/
def parse (limit : Nat) (s : List Char) : Option Nat :=
  if unsigned s = [] then none else parseDigits limit (unsigned s) 0

example : parse (2 ^ 64) "+00018446744073709551615".toList = some 18446744073709551615 := by decide

variable {limit : Nat}

theorem le_ofDigitChars (cs : List Char) (value : Nat) : value ≤ Nat.ofDigitChars 10 cs value := by
  rw [Nat.ofDigitChars_eq_ofDigitChars_zero]
  have hpos : 0 < 10 ^ cs.length := Nat.pow_pos (by decide)
  exact (Nat.le_mul_of_pos_left value hpos).trans (Nat.le_add_right _ _)

theorem parseDigits_ofDigitChars {cs : List Char} (hcs : ∀ c ∈ cs, c.isDigit) {value : Nat}
    (hlt : Nat.ofDigitChars 10 cs value < limit) :
    parseDigits limit cs value = some (Nat.ofDigitChars 10 cs value) := by
  induction cs generalizing value with
  | nil => rw [parseDigits, Nat.ofDigitChars_nil]
  | cons c cs ih =>
      obtain ⟨hc, hcs⟩ := List.forall_mem_cons.mp hcs
      rw [Nat.ofDigitChars_cons] at hlt ⊢
      have hnext := (le_ofDigitChars cs _).trans_lt hlt
      rw [parseDigits, if_pos ⟨hc, hnext⟩]
      exact ih hcs hlt

theorem isDigit_of_parseDigits {cs : List Char} {value v : Nat} (h : parseDigits limit cs value = some v) :
    ∀ c ∈ cs, c.isDigit := by
  induction cs generalizing value with
  | nil => exact fun c hc => absurd hc List.not_mem_nil
  | cons c cs ih =>
      rw [parseDigits] at h
      split at h
      next hc => exact List.forall_mem_cons.mpr ⟨hc.1, ih h⟩
      next => cases h

theorem isDigit_of_parse {s : List Char} {v : Nat} (h : parse limit s = some v) :
    ∀ c ∈ s, c.isDigit ∨ c = '+' := by
  rw [parse] at h
  split at h
  next => cases h
  next =>
    have hdigits := isDigit_of_parseDigits h
    cases s with
    | nil => exact fun c hc => absurd hc List.not_mem_nil
    | cons c cs =>
        rw [unsigned] at hdigits
        split at hdigits
        next hc => exact List.forall_mem_cons.mpr ⟨.inr hc, fun c hc => .inl (hdigits c hc)⟩
        next => exact fun c hc => .inl (hdigits c hc)

theorem isDigit_padded {width n : Nat} : ∀ c ∈ padded width n, c.isDigit := by
  intro c hc
  rw [padded, List.leftpad, List.mem_append] at hc
  obtain hc | hc := hc
  · rw [List.eq_of_mem_replicate hc]
    rfl
  · exact Nat.isDigit_of_mem_toDigits (by decide) (by decide) hc

theorem ofDigitChars_padded (width n : Nat) : Nat.ofDigitChars 10 (padded width n) 0 = n := by
  rw [padded, List.leftpad, Nat.ofDigitChars_append, Nat.ofDigitChars_replicate_zero, Nat.mul_zero,
    Nat.ofDigitChars_ten_toDigits]

theorem padded_ne_nil (width n : Nat) : padded width n ≠ [] := by
  rw [padded, List.leftpad]
  exact List.append_ne_nil_of_right_ne_nil _ Nat.toDigits_ne_nil

theorem unsigned_of_isDigit {cs : List Char} (h : ∀ c ∈ cs, c.isDigit) : unsigned cs = cs := by
  cases cs with
  | nil => rfl
  | cons c cs =>
      have hc : c ≠ '+' := by
        rintro rfl
        exact absurd (h '+' List.mem_cons_self) (by decide)
      rw [unsigned, if_neg hc]

/-- Printing and parsing are inverse on all numbers below the limit. -/
theorem parse_padded {width n : Nat} (hn : n < limit) : parse limit (padded width n) = some n := by
  rw [parse, unsigned_of_isDigit isDigit_padded, if_neg (padded_ne_nil width n)]
  have hvalue := ofDigitChars_padded width n
  rw [parseDigits_ofDigitChars isDigit_padded (hvalue.trans_lt hn), hvalue]

end Decimals
