import Mathlib.Data.Finset.Card
import Mathlib.Data.List.Nodup
import WeavatrixMemory.Library.Sorting

namespace Ranking

open Sorting

variable {α κ : Type} [DecidableEq κ] {key : α → κ} {seen : Finset κ} {a : α} {xs : List α}

def firsts (key : α → κ) : Finset κ → List α → List α
  | _, [] => []
  | seen, a :: rest => if key a ∈ seen then firsts key seen rest else a :: firsts key (insert (key a) seen) rest

theorem firsts_sublist : (firsts key seen xs).Sublist xs := by
  induction xs generalizing seen with
  | nil => exact .slnil
  | cons a rest ih =>
      rw [firsts]
      split
      next => exact ih.cons a
      next => exact ih.cons_cons a

theorem mem_keys_firsts {k : κ} : k ∈ (firsts key seen xs).map key ↔ k ∈ xs.map key ∧ k ∉ seen := by
  induction xs generalizing seen with
  | nil => simp [firsts]
  | cons a rest ih =>
      rw [firsts]
      split
      next hin =>
        rw [ih, List.map_cons, List.mem_cons, or_and_right]
        refine (or_iff_right ?_).symm
        rintro ⟨rfl, hout⟩
        exact hout hin
      next hout =>
        rw [List.map_cons, List.mem_cons, ih, List.map_cons, List.mem_cons, Finset.mem_insert, not_or, or_and_right]
        by_cases hk : k = key a
        · subst hk
          simp [hout]
        · simp [hk]

theorem nodup_keys_firsts : ((firsts key seen xs).map key).Nodup := by
  induction xs generalizing seen with
  | nil => exact List.nodup_nil
  | cons a rest ih =>
      rw [firsts]
      split
      next => exact ih
      next =>
        rw [List.map_cons, List.nodup_cons, mem_keys_firsts]
        exact ⟨fun h => h.2 (Finset.mem_insert_self _ _), ih⟩

section Leaders

variable [DecidableEq α] {cmp : α → α → Ordering}

def leaders (cmp : α → α → Ordering) (key : α → κ) (xs : List α) : Finset α :=
  xs.toFinset.filter fun a => ∀ b ∈ xs, key b = key a → (cmp a b).isLE = true

theorem mem_leaders : a ∈ leaders cmp key xs ↔ a ∈ xs ∧ ∀ b ∈ xs, key b = key a → (cmp a b).isLE = true := by
  rw [leaders, Finset.mem_filter, List.mem_toFinset]

theorem leaders_of_perm {ys : List α} (h : xs.Perm ys) : leaders cmp key xs = leaders cmp key ys := by
  ext a
  simp only [mem_leaders, h.mem_iff]

/-- How many elements come no later than this one: its place, counted from one. -/
def place (cmp : α → α → Ordering) (among : Finset α) (a : α) : Nat :=
  (among.filter fun b => (cmp b a).isLE = true).card

end Leaders

section Sorted

variable {cmp : α → α → Ordering} [Std.TransCmp cmp]

theorem firsts_least (h : xs.Pairwise fun a b => (cmp a b).isLE = true) (ha : a ∈ firsts key seen xs) {b : α}
    (hb : b ∈ xs) (hkey : key b = key a) : (cmp a b).isLE = true := by
  induction xs generalizing seen with
  | nil => cases hb
  | cons c rest ih =>
      obtain ⟨hc, hrest⟩ := List.pairwise_cons.mp h
      rw [firsts] at ha
      split at ha
      next hin =>
        obtain rfl | hb := List.mem_cons.mp hb
        · have hout := (mem_keys_firsts.mp (List.mem_map_of_mem ha)).2
          rw [← hkey] at hout
          exact absurd hin hout
        · exact ih hrest ha hb
      next =>
        obtain rfl | ha := List.mem_cons.mp ha
        · obtain rfl | hb := List.mem_cons.mp hb
          · exact isLE_refl _
          · exact hc b hb
        · obtain rfl | hb := List.mem_cons.mp hb
          · have hout := (mem_keys_firsts.mp (List.mem_map_of_mem ha)).2
            rw [hkey] at hout
            exact absurd (Finset.mem_insert_self _ _) hout
          · exact ih hrest ha hb

variable [DecidableEq α] [Std.LawfulEqCmp cmp]

theorem mem_firsts_iff (h : xs.Pairwise fun a b => (cmp a b).isLE = true) :
    a ∈ firsts key ∅ xs ↔ a ∈ leaders cmp key xs := by
  rw [mem_leaders]
  constructor
  · intro ha
    exact ⟨firsts_sublist.subset ha, fun b hb hkey => firsts_least h ha hb hkey⟩
  · rintro ⟨ha, hleast⟩
    obtain ⟨b, hb, hkey⟩ := List.mem_map.mp
      (mem_keys_firsts.mpr ⟨List.mem_map_of_mem (f := key) ha, Finset.notMem_empty (key a)⟩)
    have hab := hleast b (firsts_sublist.subset hb) hkey
    have hba := firsts_least h hb ha hkey.symm
    rwa [Std.LawfulEqCmp.eq_of_compare (Std.OrientedCmp.isLE_antisymm hab hba)]

theorem place_eq (h : xs.Pairwise fun a b => (cmp a b).isLE = true) (hnodup : xs.Nodup) {i : Nat}
    (ha : xs[i]? = some a) : place cmp xs.toFinset a = i + 1 := by
  obtain ⟨hi, rfl⟩ := List.getElem?_eq_some_iff.mp ha
  have hbefore : xs.toFinset.filter (fun b => (cmp b xs[i]).isLE = true) = (xs.take (i + 1)).toFinset := by
    ext b
    rw [Finset.mem_filter, List.mem_toFinset, List.mem_toFinset, List.mem_take_iff_getElem]
    constructor
    · rintro ⟨hb, hle⟩
      obtain ⟨j, hj, rfl⟩ := List.mem_iff_getElem.mp hb
      refine ⟨j, lt_min ?_ hj, rfl⟩
      by_contra hlate
      have hij : i < j := by omega
      have hge := List.pairwise_iff_getElem.mp h i j hi hj hij
      have heq := Std.LawfulEqCmp.eq_of_compare (Std.OrientedCmp.isLE_antisymm hge hle)
      exact hij.ne ((List.Nodup.getElem_inj_iff hnodup).mp heq)
    · rintro ⟨j, hj, rfl⟩
      have hj' := lt_min_iff.mp hj
      refine ⟨List.getElem_mem hj'.2, ?_⟩
      obtain rfl | hlt := (Nat.le_of_lt_succ hj'.1).eq_or_lt
      · exact isLE_refl _
      · exact List.pairwise_iff_getElem.mp h j i hj'.2 hi hlt
  rw [place, hbefore, List.toFinset_card_of_nodup (hnodup.sublist (List.take_sublist _ _)), List.length_take]
  omega

end Sorted

end Ranking
