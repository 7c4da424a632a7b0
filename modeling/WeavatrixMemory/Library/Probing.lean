import Mathlib.Data.Finset.Card
import Mathlib.Order.Interval.Finset.Nat

namespace Probing

variable {κ : Type} [DecidableEq κ] {key : Nat → κ}

/-- Among one more numbered keys than there are taken ones, one is free. -/
theorem exists_free (hkey : Function.Injective key) (taken : Finset κ) (start : Nat) :
    ∃ i, i < taken.card + 1 ∧ key (start + i) ∉ taken := by
  by_contra hall
  have hsub : (Finset.range (taken.card + 1)).image (fun i => key (start + i)) ⊆ taken := by
    intro k hk
    obtain ⟨i, hi, rfl⟩ := Finset.mem_image.mp hk
    by_contra hfree
    exact hall ⟨i, Finset.mem_range.mp hi, hfree⟩
  have hcard := Finset.card_le_card hsub
  rw [Finset.card_image_of_injective _ fun i j h => Nat.add_left_cancel (hkey h), Finset.card_range] at hcard
  exact absurd hcard (Nat.not_succ_le_self _)

end Probing
