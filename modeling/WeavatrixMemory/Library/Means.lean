import Mathlib.Algebra.BigOperators.Group.Finset.Piecewise
import Mathlib.Algebra.Order.BigOperators.Group.List
import Mathlib.Algebra.Order.Field.Basic
import Mathlib.Tactic.FieldSimp
import Mathlib.Tactic.Linarith
import WeavatrixMemory.Library.Groups

namespace Means

open Groups

variable {α κ K : Type} [Field K] {f g : α → K} {xs : List α}

def mean (f : α → K) (xs : List α) : K := (xs.map f).sum / xs.length

theorem length_mul_mean [CharZero K] : xs.length * mean f xs = (xs.map f).sum := by
  cases xs with
  | nil => simp [mean]
  | cons x rest =>
      have hne : ((x :: rest).length : K) ≠ 0 := Nat.cast_ne_zero.mpr (Nat.succ_ne_zero _)
      rw [mean, mul_div_cancel₀ _ hne]

section Ordered

variable [LinearOrder K] [IsStrictOrderedRing K]

theorem mean_nonneg (h : ∀ x ∈ xs, 0 ≤ f x) : 0 ≤ mean f xs :=
  div_nonneg (List.sum_nonneg (List.forall_mem_map.mpr h)) (Nat.cast_nonneg _)

theorem mean_le_mean (h : ∀ x ∈ xs, f x ≤ g x) : mean f xs ≤ mean g xs :=
  div_le_div_of_nonneg_right (List.sum_le_sum h) (Nat.cast_nonneg _)

theorem mean_le_one (h : ∀ x ∈ xs, f x ≤ 1) : mean f xs ≤ 1 := by
  have hsum : (xs.map f).sum ≤ xs.length := by
    have hle := @List.sum_le_sum _ _ _ _ _ _ xs f (fun _ => 1) h
    rwa [List.map_const', List.sum_replicate, nsmul_one] at hle
  exact div_le_one_of_le₀ hsum (Nat.cast_nonneg _)

theorem sum_eq_zero_iff (h : ∀ x ∈ xs, 0 ≤ g x) : (xs.map g).sum = 0 ↔ ∀ x ∈ xs, g x = 0 := by
  induction xs with
  | nil => simp
  | cons x rest ih =>
      obtain ⟨hx, hrest⟩ := List.forall_mem_cons.mp h
      rw [List.map_cons, List.sum_cons, List.forall_mem_cons, ← ih hrest]
      exact add_eq_zero_iff_of_nonneg hx (List.sum_nonneg (List.forall_mem_map.mpr hrest))

theorem sum_eq_sum_iff (h : ∀ x ∈ xs, f x ≤ g x) : (xs.map f).sum = (xs.map g).sum ↔ ∀ x ∈ xs, f x = g x := by
  induction xs with
  | nil => simp
  | cons x rest ih =>
      obtain ⟨hx, hrest⟩ := List.forall_mem_cons.mp h
      rw [List.map_cons, List.map_cons, List.sum_cons, List.sum_cons, List.forall_mem_cons, ← ih hrest]
      exact add_eq_add_iff_eq_and_eq hx (List.sum_le_sum hrest)

/-- Sums of too much, scaled by a factor of at least one and divided by too little, are the mean only if nothing is
too much, or nothing is counted at all. -/
theorem scaled_eq_mean_iff (h : ∀ x ∈ xs, 0 ≤ f x ∧ f x ≤ g x) {factor divisor : K} (hfactor : 1 ≤ factor)
    (hdivisor : xs ≠ [] → 0 < divisor ∧ divisor ≤ xs.length) :
    factor * (xs.map g).sum / divisor = mean f xs ↔
      (∀ x ∈ xs, g x = 0) ∨ factor = 1 ∧ divisor = xs.length ∧ ∀ x ∈ xs, f x = g x := by
  have hg (x : α) (hx : x ∈ xs) : 0 ≤ g x := (h x hx).1.trans (h x hx).2
  have hle : (xs.map f).sum ≤ (xs.map g).sum := List.sum_le_sum fun x hx => (h x hx).2
  constructor
  · intro heq
    by_cases hzero : (xs.map g).sum = 0
    · exact .inl ((sum_eq_zero_iff hg).mp hzero)
    · have hne : xs ≠ [] := by
        rintro rfl
        exact hzero rfl
      obtain ⟨hpos, hshort⟩ := hdivisor hne
      have hsum : 0 < (xs.map g).sum :=
        lt_of_le_of_ne (List.sum_nonneg (List.forall_mem_map.mpr hg)) (Ne.symm hzero)
      have hlength : (0 : K) < xs.length := hpos.trans_le hshort
      rw [mean, div_eq_div_iff hpos.ne' hlength.ne'] at heq
      -- the left side is no less than the right one in any of its three factors
      have hscaled : (xs.map g).sum ≤ factor * (xs.map g).sum := le_mul_of_one_le_left hsum.le hfactor
      have hdivided : (xs.map f).sum * divisor ≤ (xs.map g).sum * xs.length :=
        mul_le_mul hle hshort hpos.le hsum.le
      have hfirst : (xs.map g).sum * xs.length ≤ factor * (xs.map g).sum * xs.length :=
        mul_le_mul_of_nonneg_right hscaled hlength.le
      have hmiddle : (xs.map f).sum * divisor = (xs.map g).sum * xs.length := le_antisymm hdivided (hfirst.trans heq.le)
      have hone : factor * (xs.map g).sum = (xs.map g).sum :=
        mul_right_cancel₀ hlength.ne' (heq.trans hmiddle)
      have hsame : (xs.map f).sum = (xs.map g).sum := by
        refine le_antisymm hle ?_
        have hbound : (xs.map g).sum * xs.length ≤ (xs.map f).sum * xs.length := by
          rw [← hmiddle]
          exact mul_le_mul_of_nonneg_left hshort (List.sum_nonneg (List.forall_mem_map.mpr fun x hx => (h x hx).1))
        exact le_of_mul_le_mul_right hbound hlength
      refine .inr ⟨(mul_eq_right₀ hzero).mp hone, ?_, (sum_eq_sum_iff fun x hx => (h x hx).2).mp hsame⟩
      rw [hsame] at hmiddle
      exact mul_left_cancel₀ hzero hmiddle
  · rintro (hzero | ⟨rfl, rfl, hsame⟩)
    · have hnothing (x : α) (hx : x ∈ xs) : f x = 0 := le_antisymm ((h x hx).2.trans (hzero x hx).le) (h x hx).1
      rw [mean, List.map_congr_left hzero, List.map_congr_left hnothing]
      simp
    · rw [mean, one_mul, List.map_congr_left hsame]

end Ordered

variable [DecidableEq κ] {key : α → κ}

theorem sum_parts {keys : List κ} (hkeys : keys.Nodup) (h : ∀ x ∈ xs, key x ∈ keys) :
    (keys.map fun k => ((xs.filter fun x => key x = k).map f).sum).sum = (xs.map f).sum := by
  induction xs with
  | nil => simp
  | cons x rest ih =>
      obtain ⟨hx, hrest⟩ := List.forall_mem_cons.mp h
      have hsplit (k : κ) : (((x :: rest).filter fun x => key x = k).map f).sum =
          (if key x = k then f x else 0) + ((rest.filter fun x => key x = k).map f).sum := by
        by_cases hk : key x = k <;> simp [hk]
      have hone : (keys.map fun k => if key x = k then f x else 0).sum = f x := by
        rw [← List.sum_toFinset _ hkeys, Finset.sum_ite_eq, if_pos (List.mem_toFinset.mpr hx)]
      simp only [hsplit]
      rw [List.sum_map_add, hone, ih hrest, List.map_cons, List.sum_cons]

theorem sum_groups [Ord κ] [Std.TransOrd κ] [Std.LawfulEqOrd κ] (key : α → κ) (f : α → K) (xs : List α) :
    ((groups key xs).toList.map fun group => (group.2.map f).sum).sum = (xs.map f).sum := by
  have hkeys : ((groups key xs).toList.map (·.1)).Nodup := List.pairwise_map.mpr pairwise_groups
  have hall (x : α) (hx : x ∈ xs) : key x ∈ (groups key xs).toList.map (·.1) := by
    have hgroup : x ∈ xs.filter fun other => key other = key x := List.mem_filter.mpr ⟨hx, decide_eq_true rfl⟩
    exact List.mem_map.mpr ⟨(key x, _), mem_groups.mpr ⟨List.ne_nil_of_mem hgroup, rfl⟩, rfl⟩
  rw [← sum_parts hkeys hall, List.map_map]
  refine congrArg List.sum (List.map_congr_left fun group hgroup => ?_)
  rw [(mem_groups.mp (show (group.1, group.2) ∈ _ from hgroup)).2]
  rfl

end Means
