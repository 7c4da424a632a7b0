import Mathlib.Data.List.Basic
import Mathlib.Data.List.Count
import Mathlib.Tactic.Common

namespace CompressedRows

variable {β : Type}

/-- The items placed in row `i`, in the order of their placements. -/
def row (ps : List (Nat × β)) (i : Nat) : List β := (ps.filter (fun p => p.1 = i)).map (·.2)

/-- The number of placements in the rows before `i`, which is where row `i` starts. -/
def start (ps : List (Nat × β)) (i : Nat) : Nat := ps.countP (fun p => p.1 < i)

theorem row_append (ps qs : List (Nat × β)) (i : Nat) : row (ps ++ qs) i = row ps i ++ row qs i := by
  simp [row]

theorem row_cons_self (i : Nat) (b : β) (ps : List (Nat × β)) :
    row ((i, b) :: ps) i = b :: row ps i := by
  simp [row]

theorem row_cons_ne {i j : Nat} (h : i ≠ j) (b : β) (ps : List (Nat × β)) :
    row ((i, b) :: ps) j = row ps j := by
  simp [row, h]

theorem row_snoc_self (ps : List (Nat × β)) (i : Nat) (b : β) :
    row (ps ++ [(i, b)]) i = row ps i ++ [b] := by
  rw [row_append, row_cons_self]
  rfl

theorem row_snoc_ne {i j : Nat} (h : i ≠ j) (ps : List (Nat × β)) (b : β) :
    row (ps ++ [(i, b)]) j = row ps j := by
  rw [row_append, row_cons_ne h]
  exact List.append_nil _

theorem start_zero (ps : List (Nat × β)) : start ps 0 = 0 := by
  simp [start]

theorem start_succ (ps : List (Nat × β)) (i : Nat) :
    start ps (i + 1) = start ps i + (row ps i).length := by
  induction ps with
  | nil => rfl
  | cons p ps ih =>
      rcases p with ⟨j, b⟩
      simp only [start, row, List.length_map, List.countP_cons, List.filter_cons] at ih ⊢
      rw [ih]
      simp only [decide_eq_true_eq, apply_ite List.length, List.length_cons]
      split <;> split <;> split <;> omega

theorem start_mono (ps : List (Nat × β)) {i j : Nat} (h : i ≤ j) : start ps i ≤ start ps j :=
  List.countP_mono_left fun p _ hp => by
    simp only [decide_eq_true_eq] at hp ⊢
    omega

theorem start_eq_length {ps : List (Nat × β)} {n : Nat} (h : ∀ p ∈ ps, p.1 < n) :
    start ps n = ps.length :=
  List.countP_eq_length.mpr fun p hp => by simpa using h p hp

/-- The counting pass: cell `i + 1` holds the number of placements seen in row `i`. -/
structure Counted (n : Nat) (done : List (Nat × β)) (offsets : List Nat) : Prop where
  length : offsets.length = n + 1
  zero : offsets[0]? = some 0
  count : ∀ i, i < n → offsets[i + 1]? = some (row done i).length

theorem Counted.nil (n : Nat) : Counted n ([] : List (Nat × β)) (List.replicate (n + 1) 0) where
  length := List.length_replicate
  zero := by simp
  count i hi := by simp [hi, row]

theorem Counted.bump {n i : Nat} {done : List (Nat × β)} {offsets : List Nat}
    (h : Counted n done offsets) (hi : i < n) (b : β) :
    Counted n (done ++ [(i, b)]) (offsets.set (i + 1) ((row done i).length + 1)) where
  length := by rw [List.length_set, h.length]
  zero := by rw [List.getElem?_set_ne (by omega), h.zero]
  count j hj := by
    by_cases he : i = j
    · subst j
      have hl := h.length
      rw [List.getElem?_set_self (by omega), row_snoc_self, List.length_append]
      rfl
    · rw [List.getElem?_set_ne (by omega), row_snoc_ne he, h.count j hj]

/-- The running sums: the cells up to `m` are final, those after it still hold counts. -/
structure Summed (n : Nat) (all : List (Nat × β)) (m : Nat) (offsets : List Nat) : Prop where
  length : offsets.length = n + 1
  done : ∀ i, i ≤ m → offsets[i]? = some (start all i)
  count : ∀ i, m ≤ i → i < n → offsets[i + 1]? = some (row all i).length

theorem Counted.summed {n : Nat} {all : List (Nat × β)} {offsets : List Nat}
    (h : Counted n all offsets) : Summed n all 0 offsets where
  length := h.length
  done i hi := by
    obtain rfl : i = 0 := by omega
    rw [h.zero, start_zero]
  count i _ hi := h.count i hi

theorem Summed.step {n m : Nat} {all : List (Nat × β)} {offsets : List Nat}
    (h : Summed n all m offsets) (hm : m < n) :
    Summed n all (m + 1) (offsets.set (m + 1) ((row all m).length + start all m)) where
  length := by rw [List.length_set, h.length]
  done i hi := by
    have hl := h.length
    by_cases he : i = m + 1
    · subst i
      rw [List.getElem?_set_self (by omega), start_succ, Nat.add_comm]
    · rw [List.getElem?_set_ne (by omega), h.done i (by omega)]
  count i hi hn := by rw [List.getElem?_set_ne (by omega), h.count i (by omega) hn]

/-- The scatter pass over the placements `all`, of which the prefix `done` is placed. -/
structure Filled (n : Nat) (all done : List (Nat × β)) (cursor : List Nat) (items : List β) : Prop where
  cursor_length : cursor.length = n
  items_length : items.length = start all n
  cursor_get : ∀ i, i < n → cursor[i]? = some (start all i + (row done i).length)
  items_get : ∀ i, i < n → ∀ k, k < (row done i).length →
    items[start all i + k]? = (row done i)[k]?

theorem Filled.nil {n : Nat} {all : List (Nat × β)} {cursor : List Nat} {items : List β}
    (hc : cursor.length = n) (hs : ∀ i, i < n → cursor[i]? = some (start all i))
    (hl : items.length = start all n) : Filled n all [] cursor items where
  cursor_length := hc
  items_length := hl
  cursor_get := hs
  items_get := by
    intro i _ k hk
    exact absurd hk (Nat.not_lt_zero k)

theorem slot_lt {all done rest : List (Nat × β)} {i : Nat} {b : β}
    (hall : all = done ++ (i, b) :: rest) : start all i + (row done i).length < start all (i + 1) := by
  have hrow : row all i = row done i ++ b :: row rest i := by rw [hall, row_append, row_cons_self]
  rw [start_succ, hrow]
  simp

theorem Filled.place {n i : Nat} {all done rest : List (Nat × β)} {b : β} {cursor : List Nat}
    {items : List β} (h : Filled n all done cursor items) (hall : all = done ++ (i, b) :: rest)
    (hi : i < n) :
    start all i + (row done i).length < items.length ∧
      Filled n all (done ++ [(i, b)]) (cursor.set i (start all i + (row done i).length + 1))
        (items.set (start all i + (row done i).length) b) := by
  have hslot := slot_lt hall
  have hend : start all (i + 1) ≤ start all n := start_mono all hi
  have hlen : start all i + (row done i).length < items.length := by
    rw [h.items_length]
    omega
  refine ⟨hlen, ?_, ?_, ?_, ?_⟩
  · rw [List.length_set, h.cursor_length]
  · rw [List.length_set, h.items_length]
  · intro j hj
    by_cases he : i = j
    · subst j
      rw [List.getElem?_set_self (by rw [h.cursor_length]; exact hi), row_snoc_self, List.length_append]
      rfl
    · rw [List.getElem?_set_ne he, row_snoc_ne he, h.cursor_get j hj]
  · intro j hj k hk
    by_cases he : i = j
    · subst j
      rw [row_snoc_self, List.length_append, List.length_singleton] at hk
      rw [row_snoc_self]
      by_cases hk' : k = (row done i).length
      · subst k
        rw [List.getElem?_set_self hlen, List.getElem?_concat_length]
      · have hlt : k < (row done i).length := by omega
        rw [List.getElem?_set_ne (by omega), h.items_get i hj k hlt, List.getElem?_append_left hlt]
    · rw [row_snoc_ne he] at hk ⊢
      -- The slots of two rows are apart: each row ends where the next one starts.
      have hrow : (row done j).length ≤ (row all j).length := by
        rw [hall, row_append, List.length_append]
        omega
      have hsucc := start_succ all j
      have hne : start all i + (row done i).length ≠ start all j + k := by
        rcases Nat.lt_or_gt_of_ne he with hlt | hgt
        · have := start_mono all (show i + 1 ≤ j from hlt)
          omega
        · have := start_mono all (show j + 1 ≤ i from hgt)
          omega
      rw [List.getElem?_set_ne hne, h.items_get j hj k hk]

/-- Once everything is placed, the stretch between two row starts is exactly the row. -/
theorem Filled.slice {n i : Nat} {all : List (Nat × β)} {cursor : List Nat} {items : List β}
    (h : Filled n all all cursor items) (hi : i < n) :
    (items.drop (start all i)).take (start all (i + 1) - start all i) = row all i := by
  have hsucc := start_succ all i
  have hend : start all (i + 1) ≤ start all n := start_mono all hi
  apply List.ext_getElem?
  intro k
  by_cases hk : k < (row all i).length
  · rw [List.getElem?_take_of_lt (by omega), List.getElem?_drop, h.items_get i hi k hk]
  · rw [List.getElem?_eq_none (by rw [List.length_take]; omega),
      List.getElem?_eq_none (by omega)]

end CompressedRows
