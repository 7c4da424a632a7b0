import Mathlib.Data.Int.Order.Basic
import Mathlib.Data.List.Basic
import Mathlib.Order.Basic
import Mathlib.Order.Lattice

namespace Groups

variable {α κ : Type} [Ord κ] [Std.TransOrd κ]

/-- The elements of a list by their keys, those of a key in the order of the list. -/
def groups (key : α → κ) (xs : List α) : Std.ExtTreeMap κ (List α) :=
  xs.foldl (fun groups x => groups.insert (key x) (groups.getD (key x) [] ++ [x])) ∅

def tally (key : α → κ) (xs : List α) : Std.ExtTreeMap κ Nat :=
  xs.foldl (fun counts x => counts.insert (key x) (counts.getD (key x) 0 + 1)) ∅

variable [Std.LawfulEqOrd κ] [DecidableEq κ] {key : α → κ} {xs : List α} {k : κ}

theorem getElem?_snoc (groups : Std.ExtTreeMap κ (List α)) (x : α) :
    (groups.insert (key x) (groups.getD (key x) [] ++ [x]))[k]? =
      if key x = k then some (groups[k]?.getD [] ++ [x]) else groups[k]? := by
  rw [Std.ExtTreeMap.getElem?_insert, Std.ExtTreeMap.getD_eq_getD_getElem?]
  by_cases h : key x = k
  · rw [h, if_pos Std.ReflCmp.compare_self, if_pos rfl]
  · have hne : compare (key x) k ≠ .eq := fun heq => h (Std.LawfulEqOrd.eq_of_compare heq)
    rw [if_neg hne, if_neg h]

theorem getElem?_foldl (before : Std.ExtTreeMap κ (List α)) :
    (xs.foldl (fun groups x => groups.insert (key x) (groups.getD (key x) [] ++ [x])) before)[k]? =
      if xs.filter (fun x => key x = k) = [] then before[k]?
      else some (before[k]?.getD [] ++ xs.filter fun x => key x = k) := by
  induction xs generalizing before with
  | nil => rfl
  | cons x rest ih =>
      rw [List.foldl_cons, ih, getElem?_snoc]
      by_cases h : key x = k
      · rw [List.filter_cons, if_pos (decide_eq_true h), if_pos h, if_neg (List.cons_ne_nil _ _)]
        split
        next hrest => rw [hrest]
        next => rw [Option.getD_some, List.append_assoc, List.singleton_append]
      · have hneg : ¬ decide (key x = k) = true := by simpa using h
        rw [List.filter_cons, if_neg hneg, if_neg h]

theorem getElem?_groups : (groups key xs)[k]? =
    if xs.filter (fun x => key x = k) = [] then none else some (xs.filter fun x => key x = k) := by
  rw [groups, getElem?_foldl, Std.ExtTreeMap.getElem?_empty]
  rfl

theorem mem_groups {group : List α} :
    (k, group) ∈ (groups key xs).toList ↔ group ≠ [] ∧ group = xs.filter fun x => key x = k := by
  rw [Std.ExtTreeMap.mem_toList_iff_getElem?_eq_some, getElem?_groups]
  split
  next h =>
    simp only [reduceCtorEq, false_iff, not_and]
    rintro hne rfl
    exact hne h
  next h =>
    rw [Option.some.injEq]
    constructor
    · rintro rfl
      exact ⟨h, rfl⟩
    · rintro ⟨-, rfl⟩
      rfl

omit [DecidableEq κ] in
theorem pairwise_groups : (groups key xs).toList.Pairwise fun a b => a.1 ≠ b.1 :=
  Std.ExtTreeMap.distinct_keys_toList.imp fun hne heq => hne (Std.LawfulEqOrd.compare_eq_iff_eq.mpr heq)

theorem getD_insert_succ (counts : Std.ExtTreeMap κ Nat) (x : α) :
    (counts.insert (key x) (counts.getD (key x) 0 + 1)).getD k 0 = counts.getD k 0 + if key x = k then 1 else 0 := by
  rw [Std.ExtTreeMap.getD_insert]
  by_cases h : key x = k
  · rw [h, if_pos Std.ReflCmp.compare_self, if_pos rfl]
  · have hne : compare (key x) k ≠ .eq := fun heq => h (Std.LawfulEqOrd.eq_of_compare heq)
    rw [if_neg hne, if_neg h, Nat.add_zero]

theorem getD_foldl (before : Std.ExtTreeMap κ Nat) :
    (xs.foldl (fun counts x => counts.insert (key x) (counts.getD (key x) 0 + 1)) before).getD k 0 =
      before.getD k 0 + (xs.filter fun x => key x = k).length := by
  induction xs generalizing before with
  | nil => rfl
  | cons x rest ih =>
      rw [List.foldl_cons, ih, getD_insert_succ, List.filter_cons]
      by_cases h : key x = k
      · rw [if_pos h, if_pos (decide_eq_true h), List.length_cons]
        omega
      · have hneg : ¬ decide (key x = k) = true := by simpa using h
        rw [if_neg h, if_neg hneg, Nat.add_zero]

theorem getD_tally : (tally key xs).getD k 0 = (xs.filter fun x => key x = k).length := by
  rw [tally, getD_foldl, Std.ExtTreeMap.getD_empty, Nat.zero_add]

end Groups
