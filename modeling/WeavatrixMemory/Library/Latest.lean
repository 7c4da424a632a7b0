import Mathlib.Data.List.Basic
import Mathlib.Order.Lattice

namespace Latest

variable {α β τ : Type}

/-- The element stands after elements that are at most as great, and before ones that are not as great. -/
def LastMax (le : α → α → Prop) (xs : List α) (a : α) : Prop :=
  ∃ before after, xs = before ++ a :: after ∧ (∀ x ∈ before, le x a) ∧ ∀ x ∈ after, ¬ le a x

variable {le : α → α → Prop} {xs : List α} {a b : α}

theorem LastMax.mem (h : LastMax le xs a) : a ∈ xs := by
  obtain ⟨before, after, rfl, -, -⟩ := h
  exact List.mem_append_right _ List.mem_cons_self

theorem lastMax_singleton (a : α) : LastMax le [a] a :=
  ⟨[], [], rfl, fun _ h => absurd h List.not_mem_nil, fun _ h => absurd h List.not_mem_nil⟩

theorem LastMax.unique (ha : LastMax le xs a) (hb : LastMax le xs b) : a = b := by
  obtain ⟨before, after, rfl, hbefore, hafter⟩ := ha
  obtain ⟨before', after', heq, hbefore', hafter'⟩ := hb
  obtain ⟨between, hb, ha⟩ | ⟨between, hb, ha⟩ := List.append_eq_append_iff.mp heq
  · cases between with
    | nil => exact (List.cons.inj ha).1
    | cons first between =>
        obtain ⟨rfl, rfl⟩ := List.cons.inj ha
        refine absurd (hbefore' a ?_) (hafter b (List.mem_append_right _ List.mem_cons_self))
        rw [hb]
        exact List.mem_append_right _ List.mem_cons_self
  · cases between with
    | nil => exact (List.cons.inj ha).1.symm
    | cons first between =>
        obtain ⟨rfl, rfl⟩ := List.cons.inj ha
        refine absurd (hbefore b ?_) (hafter' a (List.mem_append_right _ List.mem_cons_self))
        rw [hb]
        exact List.mem_append_right _ List.mem_cons_self

theorem LastMax.snoc (total : ∀ a b, le a b ∨ le b a) (trans : ∀ a b c, le a b → le b c → le a c)
    (h : LastMax le xs a) (b : α) [Decidable (le a b)] : LastMax le (xs ++ [b]) (if le a b then b else a) := by
  obtain ⟨before, after, rfl, hbefore, hafter⟩ := h
  split
  next hab =>
    refine ⟨before ++ a :: after, [], rfl, fun x hx => ?_, fun _ h => absurd h List.not_mem_nil⟩
    obtain hx | hx := List.mem_append.mp hx
    · exact trans x a b (hbefore x hx) hab
    · obtain rfl | hx := List.mem_cons.mp hx
      · exact hab
      · exact trans x a b ((total x a).resolve_right (hafter x hx)) hab
  next hab =>
    refine ⟨before, after ++ [b], ?_, hbefore, List.forall_mem_append.mpr ⟨hafter, List.forall_mem_singleton.mpr hab⟩⟩
    rw [List.append_assoc, List.cons_append]

theorem LastMax.refine {r : α → α → Prop} (h : LastMax le xs a) (hr : xs.Pairwise r) {fine : α → α → Prop}
    (hfine : ∀ x y, le x y → r x y → fine x y) (hcoarse : ∀ x y, fine x y → le x y) : LastMax fine xs a := by
  obtain ⟨before, after, rfl, hbefore, hafter⟩ := h
  obtain ⟨-, -, hcross⟩ := List.pairwise_append.mp hr
  refine ⟨before, after, rfl, fun x hx => ?_, fun x hx hle => hafter x hx (hcoarse a x hle)⟩
  exact hfine x a (hbefore x hx) (hcross x hx a List.mem_cons_self)

variable [LinearOrder τ]

/-- Of the elements with the greatest key, the last. -/
def newest (key : α → τ) (xs : List α) : Option α :=
  (xs.filter fun x => xs.all fun y => key y ≤ key x).getLast?

theorem newest_iff {key : α → τ} : newest key xs = some a ↔ LastMax (fun x y => key x ≤ key y) xs a := by
  constructor
  · intro h
    obtain ⟨greatest, hg⟩ := List.getLast?_eq_some_iff.mp h
    obtain ⟨before, rest, rfl, -, hrest⟩ := List.filter_eq_append_iff.mp hg
    obtain ⟨skipped, after, rfl, hskipped, hmax, hafter⟩ := List.filter_eq_cons_iff.mp hrest
    have hmax := List.all_eq_true.mp hmax
    refine ⟨before ++ skipped, after, by rw [List.append_assoc], fun x hx => ?_, fun x hx hle => ?_⟩
    · refine of_decide_eq_true (hmax x ?_)
      rw [← List.append_assoc]
      exact List.mem_append_left _ hx
    · refine List.filter_eq_nil_iff.mp hafter x hx ?_
      rw [List.all_eq_true]
      intro y hy
      exact decide_eq_true (le_trans (of_decide_eq_true (hmax y hy)) hle)
  · rintro ⟨before, after, rfl, hbefore, hafter⟩
    have hmax : ∀ y ∈ before ++ a :: after, key y ≤ key a := by
      intro y hy
      obtain hy | hy := List.mem_append.mp hy
      · exact hbefore y hy
      · obtain rfl | hy := List.mem_cons.mp hy
        · exact le_rfl
        · exact le_of_not_ge (hafter y hy)
    have hnone : after.filter (fun x => (before ++ a :: after).all fun y => key y ≤ key x) = [] := by
      rw [List.filter_eq_nil_iff]
      intro x hx hall
      have ha := List.all_eq_true.mp hall a (List.mem_append_right _ List.mem_cons_self)
      exact hafter x hx (of_decide_eq_true ha)
    have hself : ((before ++ a :: after).all fun y => key y ≤ key a) = true :=
      List.all_eq_true.mpr fun y hy => decide_eq_true (hmax y hy)
    rw [newest, List.filter_append, List.filter_cons, hnone, if_pos hself, List.getLast?_append]
    rfl

/-- The newest element is found among the ones of its key. -/
theorem newest_eq_of_filter {key : α → τ} {ys : List α}
    (h : ∀ t, xs.filter (fun x => key x = t) = ys.filter fun y => key y = t) (hb : newest key ys = some b) :
    newest key xs = newest key ys := by
  have hmem : ∀ x, x ∈ xs ↔ x ∈ ys := by
    intro x
    have hx : x ∈ xs.filter (fun y => key y = key x) ↔ x ∈ ys.filter fun y => key y = key x := by rw [h (key x)]
    simpa only [List.mem_filter, decide_true, and_true] using hx
  obtain ⟨before, after, hsplit, hbefore, hafter⟩ := newest_iff.mp hb
  have hbmem : b ∈ ys := hsplit ▸ List.mem_append_right _ List.mem_cons_self
  have hmax : ∀ y ∈ ys, key y ≤ key b := by
    intro y hy
    rw [hsplit] at hy
    obtain hy | hy := List.mem_append.mp hy
    · exact hbefore y hy
    · obtain rfl | hy := List.mem_cons.mp hy
      · exact le_rfl
      · exact le_of_not_ge (hafter y hy)
  have hgreatest : ∀ zs : List α, (∀ z, z ∈ zs ↔ z ∈ ys) →
      zs.filter (fun x => zs.all fun y => key y ≤ key x) = zs.filter fun x => key x = key b := by
    intro zs hzs
    refine List.filter_congr fun x hx => ?_
    rw [Bool.eq_iff_iff, List.all_eq_true, decide_eq_true_iff]
    constructor
    · intro hall
      exact le_antisymm (hmax x ((hzs x).mp hx)) (of_decide_eq_true (hall b ((hzs b).mpr hbmem)))
    · intro heq y hy
      rw [heq]
      exact decide_eq_true (hmax y ((hzs y).mp hy))
  rw [newest, newest, hgreatest xs hmem, hgreatest ys fun _ => Iff.rfl, h]

theorem newest_congr {key : α → τ} {ys : List α}
    (h : ∀ t, xs.filter (fun x => key x = t) = ys.filter fun y => key y = t) : newest key xs = newest key ys := by
  cases hys : newest key ys with
  | some b => rw [newest_eq_of_filter h hys, hys]
  | none =>
      cases hxs : newest key xs with
      | none => rfl
      | some a =>
          rw [newest_eq_of_filter (fun t => (h t).symm) hxs, hxs] at hys
          cases hys

theorem newest_map {key : β → τ} (f : α → β) (xs : List α) :
    newest key (xs.map f) = (newest (fun a => key (f a)) xs).map f := by
  rw [newest, newest, List.filter_map, List.getLast?_map]
  congr 2
  apply List.filter_congr
  intro x _
  rw [Function.comp_apply, List.all_map]
  rfl

end Latest
