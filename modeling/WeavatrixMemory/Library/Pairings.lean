import Mathlib.Data.List.Forall2
import Mathlib.Data.List.Nodup

namespace Pairings

variable {α β γ δ : Type} {r : α → β → Prop} {xs : List α} {ys : List β}

theorem exists_right (h : List.Forall₂ r xs ys) : ∀ x ∈ xs, ∃ y ∈ ys, r x y := by
  induction h with
  | nil => exact fun _ h => absurd h List.not_mem_nil
  | cons hr _ ih =>
      refine List.forall_mem_cons.mpr ⟨⟨_, List.mem_cons_self, hr⟩, fun x hx => ?_⟩
      obtain ⟨y, hy, hr⟩ := ih x hx
      exact ⟨y, List.mem_cons_of_mem _ hy, hr⟩

theorem exists_left (h : List.Forall₂ r xs ys) : ∀ y ∈ ys, ∃ x ∈ xs, r x y := exists_right h.flip

theorem nodup_map {f : α → γ} {g : β → δ} (h : List.Forall₂ r xs ys)
    (hinj : ∀ x ∈ xs, ∀ x' ∈ xs, ∀ y y', r x y → r x' y' → g y = g y' → f x = f x') (hnodup : (xs.map f).Nodup) :
    (ys.map g).Nodup := by
  induction h with
  | nil => exact List.nodup_nil
  | @cons x y xs ys hr hrest ih =>
      rw [List.map_cons, List.nodup_cons] at hnodup ⊢
      refine ⟨fun hmem => hnodup.1 ?_, ih (fun x hx x' hx' => ?_) hnodup.2⟩
      · obtain ⟨y', hy', heq⟩ := List.mem_map.mp hmem
        obtain ⟨x', hx', hr'⟩ := exists_left hrest y' hy'
        rw [hinj x List.mem_cons_self x' (List.mem_cons_of_mem _ hx') y y' hr hr' heq.symm]
        exact List.mem_map_of_mem hx'
      · exact hinj x (List.mem_cons_of_mem _ hx) x' (List.mem_cons_of_mem _ hx')

theorem exists_middle {t : α → γ → β → Prop} (h : List.Forall₂ (fun x y => ∃ z, t x z y) xs ys) :
    ∃ zs, List.Forall₂ (fun x z => ∃ y ∈ ys, t x z y) xs zs ∧ List.Forall₂ (fun z y => ∃ x ∈ xs, t x z y) zs ys := by
  induction h with
  | nil => exact ⟨[], .nil, .nil⟩
  | @cons x y xs ys hr _ ih =>
      obtain ⟨z, hz⟩ := hr
      obtain ⟨zs, hleft, hright⟩ := ih
      refine ⟨z :: zs, .cons ⟨y, List.mem_cons_self, hz⟩ (hleft.imp ?_),
        .cons ⟨x, List.mem_cons_self, hz⟩ (hright.imp ?_)⟩
      · rintro x' z' ⟨y', hy', ht⟩
        exact ⟨y', List.mem_cons_of_mem _ hy', ht⟩
      · rintro z' y' ⟨x', hx', ht⟩
        exact ⟨x', List.mem_cons_of_mem _ hx', ht⟩

theorem filterMap_sublist {f : α → Option β} {g : β → γ} {key : α → γ}
    (h : ∀ x ∈ xs, ∀ y, f x = some y → g y = key x) : ((xs.filterMap f).map g).Sublist (xs.map key) := by
  induction xs with
  | nil => exact List.Sublist.refl _
  | cons x xs ih =>
      obtain ⟨hx, hxs⟩ := List.forall_mem_cons.mp h
      cases hf : f x with
      | none =>
          simp only [List.filterMap_cons, hf]
          exact (ih hxs).cons _
      | some y =>
          simp only [List.filterMap_cons, hf, List.map_cons, hx y hf]
          exact (ih hxs).cons_cons _

end Pairings
