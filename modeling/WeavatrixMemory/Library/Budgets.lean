import Mathlib.Algebra.BigOperators.Group.Finset.Basic
import Mathlib.Algebra.Order.Ring.Nat

namespace Budgets

/-- Items that cost something themselves and need resources, which are paid for once. -/
structure Prices (ι ρ : Type) where
  cost : ι → Nat
  needs : ι → Finset ρ
  price : ρ → Nat

structure Basket (ι ρ : Type) where
  resources : Finset ρ
  items : List ι

variable {ι ρ : Type} [DecidableEq ρ] (prices : Prices ι ρ) (budget : Nat)

def worth (basket : Basket ι ρ) : Nat :=
  ∑ r ∈ basket.resources, prices.price r + (basket.items.map prices.cost).sum

def extra (basket : Basket ι ρ) (item : ι) : Nat :=
  ∑ r ∈ prices.needs item \ basket.resources, prices.price r + prices.cost item

def add (basket : Basket ι ρ) (item : ι) : Basket ι ρ :=
  ⟨basket.resources ∪ prices.needs item, basket.items ++ [item]⟩

theorem worth_add (basket : Basket ι ρ) (item : ι) :
    worth prices (add prices basket item) = worth prices basket + extra prices basket item := by
  have hunion : ∑ r ∈ basket.resources ∪ prices.needs item, prices.price r =
      ∑ r ∈ basket.resources, prices.price r + ∑ r ∈ prices.needs item \ basket.resources, prices.price r := by
    rw [← Finset.union_sdiff_self_eq_union, Finset.sum_union Finset.disjoint_sdiff]
  rw [worth, worth, extra, add, hunion, List.map_append, List.sum_append, List.map_singleton, List.sum_singleton]
  omega

def Fits (basket : Basket ι ρ) (item : ι) : Prop := worth prices basket + extra prices basket item ≤ budget

instance decidableFits (basket : Basket ι ρ) (item : ι) : Decidable (Fits prices budget basket item) :=
  inferInstanceAs (Decidable (_ ≤ _))

/-- One turn of the greedy choice: an item is taken if it still fits. -/
def take (basket : Basket ι ρ) (item : ι) : Basket ι ρ :=
  if Fits prices budget basket item then add prices basket item else basket

def fill (basket : Basket ι ρ) (items : List ι) : Basket ι ρ := items.foldl (take prices budget) basket

end Budgets
