import Mathlib.Data.List.Sort

namespace Sorting

variable {α : Type} {le : α → α → Bool}

theorem orderedInsert_append {a : α} {before after : List α} (h : ∀ b ∈ before, ¬ le a b = true)
    (hafter : ∀ b ∈ after, le a b = true) :
    (before ++ after).orderedInsert (fun a b => le a b = true) a = before ++ a :: after := by
  induction before with
  | nil =>
      cases after with
      | nil => rfl
      | cons b after => exact List.orderedInsert_cons_of_le _ _ (hafter b List.mem_cons_self)
  | cons b before ih =>
      obtain ⟨hb, hbefore⟩ := List.forall_mem_cons.mp h
      rw [List.cons_append, List.orderedInsert_cons, if_neg hb, ih hbefore]
      rfl

/-- Both of the stable sorts put a list into the same order. -/
theorem mergeSort_eq_insertionSort (trans : ∀ a b c, le a b = true → le b c = true → le a c = true)
    (total : ∀ a b, (le a b || le b a) = true) (xs : List α) :
    xs.mergeSort le = xs.insertionSort fun a b => le a b = true := by
  induction xs with
  | nil => rw [List.mergeSort_nil, List.insertionSort_nil]
  | cons a xs ih =>
      obtain ⟨before, after, hcons, hrest, hbefore⟩ := List.mergeSort_cons trans total a xs
      have hsorted := List.pairwise_mergeSort trans total (a :: xs)
      rw [hcons] at hsorted
      obtain ⟨-, hafter, -⟩ := List.pairwise_append.mp hsorted
      rw [List.insertionSort_cons, ← ih, hrest, hcons]
      refine (orderedInsert_append (fun b hb => ?_) (List.pairwise_cons.mp hafter).1).symm
      simpa using hbefore b hb

section Comparison

variable {cmp : α → α → Ordering} [Std.TransCmp cmp]

theorem isLE_refl (a : α) : (cmp a a).isLE = true := by
  rw [@Std.ReflCmp.compare_self _ cmp]
  rfl

theorem isLE_total (a b : α) : ((cmp a b).isLE || (cmp b a).isLE) = true := by
  have hswap : cmp b a = (cmp a b).swap := Std.OrientedCmp.eq_swap
  rw [Bool.or_eq_true, hswap]
  cases cmp a b <;> simp

theorem pairwise_sort (cmp : α → α → Ordering) [Std.TransCmp cmp] (xs : List α) :
    (xs.mergeSort fun a b => (cmp a b).isLE).Pairwise fun a b => (cmp a b).isLE = true :=
  List.pairwise_mergeSort (fun _ _ _ => Std.TransCmp.isLE_trans) isLE_total xs

/-- Where the comparison tells the elements apart, sorting forgets the order in which they came. -/
theorem sort_eq_of_perm {xs ys : List α} (h : xs.Perm ys) (hcmp : ∀ a ∈ xs, ∀ b ∈ xs, cmp a b = .eq → a = b) :
    xs.mergeSort (fun a b => (cmp a b).isLE) = ys.mergeSort fun a b => (cmp a b).isLE := by
  have hperm := ((List.mergeSort_perm xs fun a b => (cmp a b).isLE).trans h).trans
    (List.mergeSort_perm ys fun a b => (cmp a b).isLE).symm
  refine hperm.eq_of_pairwise (fun a b ha hb hab hba => ?_) (pairwise_sort cmp xs) (pairwise_sort cmp ys)
  rw [List.mem_mergeSort] at ha hb
  exact hcmp a ha b (h.mem_iff.mpr hb) (Std.OrientedCmp.isLE_antisymm hab hba)

omit [Std.TransCmp cmp] in
theorem filter_prefix {P : α → Bool} {xs : List α} (h : xs.Pairwise fun a b => P b = true → P a = true) :
    xs.filter P <+: xs := by
  induction xs with
  | nil => exact List.prefix_refl _
  | cons a xs ih =>
      obtain ⟨hfirst, hrest⟩ := List.pairwise_cons.mp h
      by_cases ha : P a = true
      · rw [List.filter_cons_of_pos ha]
        exact List.cons_prefix_cons.mpr ⟨rfl, ih hrest⟩
      · have hnone : (a :: xs).filter P = [] := by
          rw [List.filter_cons_of_neg ha, List.filter_eq_nil_iff]
          exact fun b hb hkeep => ha (hfirst b hb hkeep)
        rw [hnone]
        exact List.nil_prefix

theorem prefix_sort {P : α → Bool} {xs : List α} (hcmp : ∀ a ∈ xs, ∀ b ∈ xs, cmp a b = .eq → a = b)
    (hdown : ∀ a b, (cmp a b).isLE = true → P b = true → P a = true) :
    (xs.filter P).mergeSort (fun a b => (cmp a b).isLE) <+: xs.mergeSort fun a b => (cmp a b).isLE := by
  have hperm := List.mergeSort_perm xs fun a b => (cmp a b).isLE
  have hsorted := pairwise_sort cmp xs
  have hfirst : (xs.filter P).mergeSort (fun a b => (cmp a b).isLE) =
      (xs.mergeSort fun a b => (cmp a b).isLE).filter P := by
    refine ((List.mergeSort_perm _ _).trans (hperm.filter P).symm).eq_of_pairwise (fun a b ha hb hab hba => ?_)
      (pairwise_sort cmp _) (hsorted.filter P)
    rw [List.mem_mergeSort] at ha
    exact hcmp a (List.mem_of_mem_filter ha) b (hperm.mem_iff.mp (List.mem_of_mem_filter hb))
      (Std.OrientedCmp.isLE_antisymm hab hba)
  rw [hfirst]
  exact filter_prefix (hsorted.imp fun hle => hdown _ _ hle)

structure Listing (cmp : α → α → Ordering) (P : α → Prop) (xs : List α) : Prop where
  sorted : xs.Pairwise fun a b => cmp a b = .lt
  mem : ∀ a, a ∈ xs ↔ P a

theorem Listing.nodup {P : α → Prop} {xs : List α} (h : Listing cmp P xs) : xs.Nodup :=
  h.sorted.imp fun hlt heq => by
    rw [heq, @Std.ReflCmp.compare_self _ cmp] at hlt
    cases hlt

omit [Std.TransCmp cmp] in
theorem Listing.congr {P Q : α → Prop} {xs : List α} (h : Listing cmp P xs)
    (hsame : ∀ a, P a ↔ Q a) : Listing cmp Q xs :=
  ⟨h.sorted, fun a => (h.mem a).trans (hsame a)⟩

theorem Listing.unique {P Q : α → Prop} {xs ys : List α} (h : Listing cmp P xs) (h' : Listing cmp Q ys)
    (hsame : ∀ a, P a ↔ Q a) : xs = ys := by
  have hperm : xs.Perm ys := (List.perm_ext_iff_of_nodup h.nodup h'.nodup).mpr fun a => by
    rw [h.mem, h'.mem, hsame]
  refine hperm.eq_of_pairwise (fun a b _ _ hab hba => ?_) h.sorted h'.sorted
  have hswap : cmp b a = (cmp a b).swap := Std.OrientedCmp.eq_swap
  rw [hab, hba] at hswap
  cases hswap

theorem listing_sort {xs : List α} (hnodup : xs.Nodup) (hcmp : ∀ a ∈ xs, ∀ b ∈ xs, cmp a b = .eq → a = b) :
    Listing cmp (· ∈ xs) (xs.mergeSort fun a b => (cmp a b).isLE) where
  sorted := by
    have hperm := List.mergeSort_perm xs fun a b => (cmp a b).isLE
    have hne : (xs.mergeSort fun a b => (cmp a b).isLE).Pairwise (· ≠ ·) := hperm.nodup_iff.mpr hnodup
    refine ((pairwise_sort cmp xs).and hne).imp_of_mem fun {a b} ha hb h => ?_
    cases hab : cmp a b with
    | lt => rfl
    | eq => exact absurd (hcmp a (hperm.mem_iff.mp ha) b (hperm.mem_iff.mp hb) hab) h.2
    | gt =>
        rw [hab] at h
        cases h.1
  mem := fun _ => List.mem_mergeSort

theorem mem_take_sort {xs : List α} {a : α} (ha : a ∈ xs) (htie : ∀ b ∈ xs, cmp b a = .eq → b = a) {m : Nat} :
    a ∈ (xs.mergeSort fun a b => (cmp a b).isLE).take m ↔ (xs.filter fun b => cmp b a = .lt).length < m := by
  have hperm := List.mergeSort_perm xs fun a b => (cmp a b).isLE
  obtain ⟨before, after, hsplit, hnew⟩ := List.eq_append_cons_of_mem (hperm.mem_iff.mpr ha)
  have hsorted := pairwise_sort cmp xs
  rw [hsplit] at hsorted
  obtain ⟨-, hafter, hbefore⟩ := List.pairwise_append.mp hsorted
  have hmem (b : α) (hb : b ∈ before) : b ∈ xs := by
    apply hperm.mem_iff.mp
    rw [hsplit]
    exact List.mem_append_left _ hb
  have hsmaller : before.filter (fun b => cmp b a = .lt) = before := by
    rw [List.filter_eq_self]
    intro b hb
    have hle := hbefore b hb a List.mem_cons_self
    have hne : cmp b a ≠ .eq := fun heq => hnew (htie b (hmem b hb) heq ▸ hb)
    cases hcmp : cmp b a with
    | lt => rfl
    | eq => exact absurd hcmp hne
    | gt => simp [hcmp] at hle
  have hlarger : (a :: after).filter (fun b => cmp b a = .lt) = [] := by
    rw [List.filter_eq_nil_iff]
    intro b hb
    have hle : (cmp a b).isLE = true := by
      obtain rfl | hb := List.mem_cons.mp hb
      · exact isLE_refl _
      · exact (List.pairwise_cons.mp hafter).1 b hb
    have hswap : cmp b a = (cmp a b).swap := Std.OrientedCmp.eq_swap
    rw [hswap]
    cases hcmp : cmp a b with
    | lt => simp
    | eq => simp
    | gt => simp [hcmp] at hle
  have hlength : (xs.filter fun b => cmp b a = .lt).length = before.length := by
    rw [← (hperm.filter _).length_eq, hsplit, List.filter_append, hsmaller, hlarger, List.append_nil]
  rw [hlength, hsplit, List.take_append, List.mem_append]
  constructor
  · rintro (h | h)
    · exact absurd (List.mem_of_mem_take h) hnew
    · by_contra hle
      rw [Nat.sub_eq_zero_of_le (not_lt.mp hle)] at h
      exact List.not_mem_nil h
  · intro hlt
    obtain ⟨n, hn⟩ := Nat.exists_eq_add_of_lt hlt
    right
    rw [show m - before.length = n + 1 by omega, List.take_succ_cons]
    exact List.mem_cons_self

theorem mem_take_sort_of_lt {xs : List α} {a b : α} (hb : b ∈ xs) (hlt : cmp b a = .lt) {m : Nat}
    (ha : a ∈ (xs.mergeSort fun a b => (cmp a b).isLE).take m) :
    b ∈ (xs.mergeSort fun a b => (cmp a b).isLE).take m := by
  have hmem := (List.mergeSort_perm xs fun a b => (cmp a b).isLE).mem_iff.mpr hb
  have hsorted := pairwise_sort cmp xs
  rw [← List.take_append_drop m (xs.mergeSort _)] at hmem hsorted
  obtain hmem | hmem := List.mem_append.mp hmem
  · exact hmem
  · have hle := (List.pairwise_append.mp hsorted).2.2 a ha b hmem
    have hswap : cmp a b = (cmp b a).swap := Std.OrientedCmp.eq_swap
    rw [hswap, hlt] at hle
    cases hle

theorem getLast?_sort {xs : List α} {a : α} (h : (xs.mergeSort fun a b => (cmp a b).isLE).getLast? = some a) :
    a ∈ xs ∧ ∀ b ∈ xs, (cmp b a).isLE = true := by
  have hperm := List.mergeSort_perm xs fun a b => (cmp a b).isLE
  obtain ⟨before, hsplit⟩ := List.getLast?_eq_some_iff.mp h
  have hsorted := pairwise_sort cmp xs
  rw [hsplit] at hsorted
  have hmem : a ∈ xs := by
    apply hperm.mem_iff.mp
    rw [hsplit]
    exact List.mem_append_right _ List.mem_cons_self
  refine ⟨hmem, fun b hb => ?_⟩
  rw [← hperm.mem_iff, hsplit] at hb
  obtain hb | hb := List.mem_append.mp hb
  · exact (List.pairwise_append.mp hsorted).2.2 b hb a List.mem_cons_self
  · obtain rfl := List.mem_singleton.mp hb
    exact isLE_refl _

end Comparison

section Lexicographic

variable {τ : Type} [LinearOrder τ] {x y z : τ} {p q r : Prop}

theorem lex_trans (h : x < y ∨ x = y ∧ p) (h' : y < z ∨ y = z ∧ q) (hpq : p → q → r) : x < z ∨ x = z ∧ r := by
  obtain h | ⟨rfl, hp⟩ := h
  · obtain h' | ⟨rfl, -⟩ := h'
    · exact .inl (lt_trans h h')
    · exact .inl h
  · exact h'.imp_right fun h' => ⟨h'.1, hpq hp h'.2⟩

theorem lex_total (x y : τ) (h : p ∨ q) : (x < y ∨ x = y ∧ p) ∨ (y < x ∨ y = x ∧ q) := by
  obtain hlt | heq | hgt := lt_trichotomy x y
  · exact .inl (.inl hlt)
  · exact h.imp (fun hp => .inr ⟨heq, hp⟩) fun hq => .inr ⟨heq.symm, hq⟩
  · exact .inr (.inl hgt)

end Lexicographic

end Sorting
