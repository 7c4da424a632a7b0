import Mathlib.Data.List.Nodup
import Mathlib.Data.List.Perm.Subperm
import Mathlib.Data.List.Sort
import Mathlib.Data.Nat.Find

namespace Chains

variable {α : Type} {next : α → Option α}

/-- `n` steps along the links, as far as there are any. -/
def walk (next : α → Option α) : Nat → α → Option α
  | 0, a => some a
  | n + 1, a => (next a).bind (walk next n)

theorem walk_succ_eq_some {n : Nat} {a c : α} :
    walk next (n + 1) a = some c ↔ ∃ b, next a = some b ∧ walk next n b = some c :=
  Option.bind_eq_some_iff

theorem walk_add (m n : Nat) (a : α) : walk next (m + n) a = (walk next m a).bind (walk next n) := by
  induction m generalizing a with
  | zero =>
      rw [Nat.zero_add]
      rfl
  | succ m ih =>
      rw [Nat.add_right_comm]
      cases h : next a with
      | none => simp [walk, h]
      | some b => simpa [walk, h] using ih b

theorem walk_succ (n : Nat) (a : α) : walk next (n + 1) a = (walk next n a).bind next := by
  rw [walk_add]
  congr 1
  funext b
  simp only [walk]
  cases next b <;> rfl

theorem walk_none_of_le {m n : Nat} {a : α} (hmn : m ≤ n) (h : walk next m a = none) :
    walk next n a = none := by
  obtain ⟨k, rfl⟩ := Nat.exists_eq_add_of_le hmn
  rw [walk_add, h]
  rfl

theorem walk_mul_of_return {n : Nat} {a : α} (h : walk next n a = some a) (k : Nat) :
    walk next (k * n) a = some a := by
  induction k with
  | zero =>
      rw [Nat.zero_mul]
      rfl
  | succ k ih =>
      rw [Nat.succ_mul, walk_add, ih]
      exact h

theorem no_return_of_ends {N : Nat} {a : α} (h : walk next N a = none) (n : Nat) :
    walk next (n + 1) a ≠ some a := by
  intro hr
  have hle : N ≤ N * (n + 1) := Nat.le_mul_of_pos_right N (Nat.succ_pos n)
  have hN := walk_mul_of_return hr N
  rw [walk_none_of_le hle h] at hN
  cases hN

/-- Where every element with a link is one of the listed ones, a walk that is longer than the list
meets an element twice. -/
theorem ends_of_no_return {s : List α} (hs : ∀ a b, next a = some b → a ∈ s)
    (hreturn : ∀ a ∈ s, ∀ n, walk next (n + 1) a ≠ some a) (a : α) :
    walk next (s.length + 1) a = none := by
  by_contra hne
  have : Nonempty α := ⟨a⟩
  have hstep (i : Nat) (hi : i < s.length + 1) : ∃ b ∈ s, walk next i a = some b := by
    cases hw : walk next i a with
    | none => exact absurd (walk_none_of_le hi.le hw) hne
    | some b =>
        cases hb : next b with
        | none =>
            have hend : walk next (i + 1) a = none := by
              rw [walk_succ, hw]
              exact hb
            exact absurd (walk_none_of_le hi hend) hne
        | some c => exact ⟨b, hs b c hb, rfl⟩
  choose! visited hmem hvisited using hstep
  have hnodup : ((List.range (s.length + 1)).map visited).Nodup := by
    refine List.Nodup.map_on ?_ List.nodup_range
    have hlt : ∀ i j, i < j → j < s.length + 1 → visited i ≠ visited j := by
      intro i j hij hj he
      obtain ⟨k, rfl⟩ := Nat.exists_eq_add_of_lt hij
      have hi : i < s.length + 1 := by omega
      have hw := hvisited (i + k + 1) hj
      rw [← he, Nat.add_assoc, walk_add, hvisited i hi] at hw
      exact hreturn _ (hmem i hi) k hw
    intro i hi j hj he
    rw [List.mem_range] at hi hj
    rcases Nat.lt_trichotomy i j with h | h | h
    · exact absurd he (hlt i j h hj)
    · exact h
    · exact absurd he.symm (hlt j i h hi)
  have hsub : (List.range (s.length + 1)).map visited ⊆ s := by
    intro b hb
    obtain ⟨i, hi, rfl⟩ := List.mem_map.mp hb
    exact hmem i (List.mem_range.mp hi)
  have hle := (hnodup.subperm hsub).length_le
  rw [List.length_map, List.length_range] at hle
  omega

theorem exists_last {N : Nat} {a : α} (h : walk next N a = none) :
    ∃ n b, walk next n a = some b ∧ next b = none := by
  induction N generalizing a with
  | zero => cases h
  | succ N ih =>
      cases ha : next a with
      | none => exact ⟨0, a, rfl, ha⟩
      | some c =>
          have hc : walk next N c = none := by simpa [walk, ha] using h
          obtain ⟨n, b, hb, hn⟩ := ih hc
          exact ⟨n + 1, b, by simpa [walk, ha] using hb, hn⟩

theorem walk_inverse {back : α → Option α} (h : ∀ a b, next a = some b → back b = some a) {n : Nat}
    {a b : α} (hw : walk next n a = some b) : walk back n b = some a := by
  induction n generalizing b with
  | zero =>
      obtain rfl : a = b := Option.some.inj hw
      rfl
  | succ n ih =>
      rw [walk_succ, Option.bind_eq_some_iff] at hw
      obtain ⟨c, hc, hb⟩ := hw
      rw [walk, h c b hb]
      exact ih hc

theorem walk_mem {s : α → Prop} (hs : ∀ a b, next a = some b → s b) {n : Nat} {a b : α} (ha : s a)
    (hw : walk next n a = some b) : s b := by
  cases n with
  | zero =>
      obtain rfl : a = b := Option.some.inj hw
      exact ha
  | succ n =>
      rw [walk_succ, Option.bind_eq_some_iff] at hw
      obtain ⟨c, _, hb⟩ := hw
      exact hs c b hb

/-- Lists whose walks all end can be put in an order in which each link leads to something
earlier. -/
theorem exists_perm_links_before {β : Type} (key : β → α) (l : List β) {N : Nat}
    (h : ∀ a ∈ l, walk next N (key a) = none) :
    ∃ order, order.Perm l ∧ ∀ before a later, order = before ++ a :: later →
      ∀ b ∈ l, next (key a) = some (key b) → b ∈ before := by
  classical
  let rank (a : β) : Nat := if h : ∃ n, walk next n (key a) = none then Nat.find h else 0
  have hrank : ∀ a ∈ l, ∀ b ∈ l, next (key a) = some (key b) → rank b < rank a := by
    intro a ha b hb hab
    have hea : ∃ n, walk next n (key a) = none := ⟨N, h a ha⟩
    have heb : ∃ n, walk next n (key b) = none := ⟨N, h b hb⟩
    simp only [rank, dif_pos hea, dif_pos heb]
    obtain ⟨m, hm⟩ : ∃ m, Nat.find hea = m + 1 := by
      refine Nat.exists_eq_succ_of_ne_zero fun h0 => ?_
      have hw := Nat.find_spec hea
      rw [h0] at hw
      cases hw
    have hw := Nat.find_spec hea
    rw [hm, walk, hab] at hw
    rw [hm]
    exact Nat.lt_succ_of_le (Nat.find_min' heb hw)
  have htotal : ∀ a b : β, decide (rank a ≤ rank b) || decide (rank b ≤ rank a) := by
    intro a b
    rw [Bool.or_eq_true, decide_eq_true_eq, decide_eq_true_eq]
    exact Nat.le_total _ _
  have htrans : ∀ a b c : β, decide (rank a ≤ rank b) → decide (rank b ≤ rank c) →
      decide (rank a ≤ rank c) := by
    intro a b c hab hbc
    rw [decide_eq_true_eq] at hab hbc ⊢
    exact hab.trans hbc
  have hsorted := List.pairwise_mergeSort htrans htotal l
  have hperm := List.mergeSort_perm l (fun a b => decide (rank a ≤ rank b))
  refine ⟨_, hperm, fun before a later horder b hb hab => ?_⟩
  rw [horder] at hperm hsorted
  have ha : a ∈ l := hperm.mem_iff.mp (List.mem_append_right _ List.mem_cons_self)
  have hlt := hrank a ha b hb hab
  rcases List.mem_append.mp (hperm.mem_iff.mpr hb) with hb | hb
  · exact hb
  · rcases List.mem_cons.mp hb with rfl | hb
    · exact absurd hlt (lt_irrefl _)
    · have hle := (List.pairwise_cons.mp (List.pairwise_append.mp hsorted).2.1).1 b hb
      rw [decide_eq_true_eq] at hle
      omega

end Chains
