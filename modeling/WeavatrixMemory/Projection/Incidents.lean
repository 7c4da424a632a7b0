import WeavatrixMemory.Library.CompressedRows
import WeavatrixMemory.Library.Outcome
import WeavatrixMemory.Projection.State

namespace WeavatrixMemory.Projection.Incidents

open Error Identity Domain State CompressedRows Outcome

def placements : Nat → List (Nat × Nat) → List (Nat × Nat)
  | _, [] => []
  | fact, (source, target) :: rest =>
      (source, fact) ::
        ((if target ≠ source then [(target, fact)] else []) ++ placements (fact + 1) rest)

/-- The only failure of the index construction is a count that leaves the machine word. -/
def Overflows (small : Prop) (e : MemoryError) : Prop := e = .capacityOverflow ∧ ¬ small

theorem usizeChecked_holds {n : Nat} (bound : Nat) (h : n ≤ bound) :
    Holds (· = n) (Overflows (bound < 2 ^ 64)) (usizeChecked n) := by
  unfold usizeChecked
  split
  · rfl
  · exact ⟨rfl, by omega⟩

theorem bumpOffset_holds {n i : Nat} {all done rest : List (Nat × Nat)} {b : Nat} {offsets : List Nat}
    (h : Counted n done offsets) (hall : all = done ++ (i, b) :: rest) (hi : i < n) :
    Holds (Counted n (done ++ [(i, b)])) (Overflows (all.length < 2 ^ 64))
      (bumpOffset offsets (i + 1)) := by
  have hrow : (row done i).length ≤ done.length := by
    rw [row, List.length_map]
    exact List.length_filter_le _ _
  have hget : getAt offsets (i + 1) = .ok (row done i).length := getAt_eq_ok.mpr (h.count i hi)
  have hlen := h.length
  unfold bumpOffset
  rw [hget]
  apply holds_ok_bind
  refine (usizeChecked_holds all.length ?_).bind ?_
  · rw [hall, List.length_append, List.length_cons]
    omega
  · rintro _ rfl
    rw [setAt_of_lt (by omega)]
    exact h.bump hi b

theorem countIncidents_holds {n : Nat} {all : List (Nat × Nat)} (endpoints : List (Nat × Nat))
    (hlt : ∀ e ∈ endpoints, e.1 < n ∧ e.2 < n) (fact : Nat) {done : List (Nat × Nat)}
    {offsets : List Nat} (h : Counted n done offsets) (hall : all = done ++ placements fact endpoints) :
    Holds (Counted n all) (Overflows (all.length < 2 ^ 64)) (countIncidents endpoints offsets) := by
  induction endpoints generalizing fact done offsets with
  | nil =>
      rw [hall]
      simpa [countIncidents, placements, Holds] using h
  | cons e endpoints ih =>
      rcases e with ⟨source, target⟩
      obtain ⟨hs, ht⟩ := hlt (source, target) List.mem_cons_self
      have hrest : ∀ e ∈ endpoints, e.1 < n ∧ e.2 < n := fun e he => hlt e (List.mem_cons_of_mem _ he)
      rw [placements] at hall
      refine (bumpOffset_holds h hall hs).bind fun offsets h => ?_
      by_cases hne : target ≠ source
      · rw [if_pos hne, List.cons_append, List.nil_append] at hall
        rw [if_pos hne]
        have hall' : all = (done ++ [(source, fact)]) ++ (target, fact) :: placements (fact + 1) endpoints := by
          rw [hall, List.append_assoc]
          rfl
        refine (bumpOffset_holds h hall' ht).bind fun offsets h => ?_
        exact ih hrest (fact + 1) h (by rw [hall', List.append_assoc (done ++ [(source, fact)])]; rfl)
      · rw [if_neg hne, List.nil_append] at hall
        rw [if_neg hne]
        exact ih hrest (fact + 1) h (by rw [hall, List.append_assoc]; rfl)

theorem sumOffsets_holds {n : Nat} {all : List (Nat × Nat)} (hall : ∀ p ∈ all, p.1 < n)
    (rounds m : Nat) (hm : m + rounds = n) {offsets : List Nat} (h : Summed n all m offsets) :
    Holds (Summed n all n) (Overflows (all.length < 2 ^ 64)) (sumOffsets rounds (m + 1) offsets) := by
  induction rounds generalizing m offsets with
  | zero =>
      obtain rfl : m = n := by omega
      exact h
  | succ rounds ih =>
      have hcount : getAt offsets (m + 1) = .ok (row all m).length :=
        getAt_eq_ok.mpr (h.count m le_rfl (by omega))
      have hbefore : getAt offsets m = .ok (start all m) := getAt_eq_ok.mpr (h.done m le_rfl)
      have hlen := h.length
      have hsum : (row all m).length + start all m ≤ all.length := by
        rw [← start_eq_length hall, Nat.add_comm, ← start_succ]
        exact start_mono all (by omega)
      unfold sumOffsets
      rw [hcount, Nat.add_sub_cancel, hbefore]
      apply holds_ok_bind
      apply holds_ok_bind
      refine (usizeChecked_holds _ hsum).bind ?_
      rintro _ rfl
      rw [setAt_of_lt (by omega)]
      exact ih (m + 1) (by omega) (h.step (by omega))

theorem placeIncident_eq {n i : Nat} {all done rest : List (Nat × Nat)} {b : Nat}
    {cursor incidents : List Nat} (h : Filled n all done cursor incidents)
    (hall : all = done ++ (i, b) :: rest) (hi : i < n) :
    ∃ cursor' incidents', placeIncident i b cursor incidents = .ok (cursor', incidents') ∧
      Filled n all (done ++ [(i, b)]) cursor' incidents' := by
  obtain ⟨hslot, hfilled⟩ := h.place hall hi
  have hget : getAt cursor i = .ok (start all i + (row done i).length) :=
    getAt_eq_ok.mpr (h.cursor_get i hi)
  refine ⟨_, _, ?_, hfilled⟩
  unfold placeIncident
  rw [hget]
  simp only [setAt_of_lt hslot, setAt_of_lt (show i < cursor.length by rw [h.cursor_length]; exact hi),
    bind, Except.bind]

theorem placeIncidents_eq {n : Nat} {all : List (Nat × Nat)} (endpoints : List (Nat × Nat))
    (hlt : ∀ e ∈ endpoints, e.1 < n ∧ e.2 < n) (fact : Nat) {done : List (Nat × Nat)}
    {cursor incidents : List Nat} (h : Filled n all done cursor incidents)
    (hall : all = done ++ placements fact endpoints) :
    ∃ cursor' incidents', placeIncidents fact endpoints cursor incidents = .ok (cursor', incidents') ∧
      Filled n all all cursor' incidents' := by
  induction endpoints generalizing fact done cursor incidents with
  | nil =>
      refine ⟨cursor, incidents, rfl, ?_⟩
      rw [placements, List.append_nil] at hall
      rwa [← hall] at h
  | cons e endpoints ih =>
      rcases e with ⟨source, target⟩
      obtain ⟨hs, ht⟩ := hlt (source, target) List.mem_cons_self
      have hrest : ∀ e ∈ endpoints, e.1 < n ∧ e.2 < n := fun e he => hlt e (List.mem_cons_of_mem _ he)
      rw [placements] at hall
      obtain ⟨cursor₁, incidents₁, hp, h₁⟩ := placeIncident_eq h hall hs
      unfold placeIncidents
      rw [hp]
      by_cases hne : target ≠ source
      · rw [if_pos hne, List.cons_append, List.nil_append] at hall
        have hall' : all = (done ++ [(source, fact)]) ++ (target, fact) :: placements (fact + 1) endpoints := by
          rw [hall, List.append_assoc]
          rfl
        obtain ⟨cursor₂, incidents₂, hp₂, h₂⟩ := placeIncident_eq h₁ hall' ht
        obtain ⟨cursor₃, incidents₃, hp₃, h₃⟩ := ih hrest (fact + 1) h₂
          (by rw [hall', List.append_assoc (done ++ [(source, fact)])]; rfl)
        refine ⟨cursor₃, incidents₃, ?_, h₃⟩
        simpa only [bind, Except.bind, if_pos hne, hp₂] using hp₃
      · rw [if_neg hne, List.nil_append] at hall
        obtain ⟨cursor₃, incidents₃, hp₃, h₃⟩ := ih hrest (fact + 1) h₁
          (by rw [hall, List.append_assoc]; rfl)
        refine ⟨cursor₃, incidents₃, ?_, h₃⟩
        simpa only [bind, Except.bind, if_neg hne] using hp₃

theorem placements_lt {n : Nat} (endpoints : List (Nat × Nat))
    (hlt : ∀ e ∈ endpoints, e.1 < n ∧ e.2 < n) (fact : Nat) :
    ∀ p ∈ placements fact endpoints, p.1 < n := by
  induction endpoints generalizing fact with
  | nil =>
      intro p hp
      cases hp
  | cons e endpoints ih =>
      rcases e with ⟨source, target⟩
      obtain ⟨hs, ht⟩ := hlt (source, target) List.mem_cons_self
      intro p hp
      rw [placements, List.mem_cons, List.mem_append] at hp
      rcases hp with rfl | hp | hp
      · exact hs
      · split at hp
        · obtain rfl := List.mem_singleton.mp hp
          exact ht
        · cases hp
      · exact ih (fun e he => hlt e (List.mem_cons_of_mem _ he)) (fact + 1) p hp

theorem placements_length (endpoints : List (Nat × Nat)) (fact : Nat) :
    (placements fact endpoints).length ≤ 2 * endpoints.length := by
  induction endpoints generalizing fact with
  | nil => simp [placements]
  | cons e endpoints ih =>
      have h := ih (fact + 1)
      rw [placements, List.length_cons, List.length_append, List.length_cons]
      split
      · rw [List.length_singleton]
        omega
      · rw [List.length_nil]
        omega

theorem row_placements (endpoints : List (Nat × Nat)) (fact i : Nat) :
    row (placements fact endpoints) i =
      ((endpoints.zipIdx fact).filter (fun e => e.1.1 = i ∨ e.1.2 = i)).map (·.2) := by
  induction endpoints generalizing fact with
  | nil => rfl
  | cons e endpoints ih =>
      rcases e with ⟨source, target⟩
      rw [placements, List.zipIdx_cons, List.filter_cons]
      by_cases hs : source = i
      · subst source
        rw [row_cons_self, row_append, ih]
        by_cases ht : target = i
        · subst target
          simp [row]
        · simp [row, ht]
      · rw [row_cons_ne hs, row_append, ih]
        by_cases ht : target = i
        · subst target
          simp [row, hs, Ne.symm hs]
        · simp only [hs, ht, or_self, decide_false, Bool.false_eq_true, if_false]
          split <;> simp [row, ht]

structure Rows (n : Nat) (all : List (Nat × Nat)) (offsets incidents : List Nat) : Prop where
  offsets_eq : offsets = (List.range (n + 1)).map (start all)
  length : incidents.length = start all n
  slice : ∀ i, i < n → (incidents.drop (start all i)).take (start all (i + 1) - start all i) = row all i

/-- With every endpoint in range the index construction meets no index error, and it can fail
only when there are too many incidences to count. -/
theorem setIncidents_holds (p : MemoryProjection) (endpoints : List (Nat × Nat))
    (hlt : ∀ e ∈ endpoints, e.1 < p.nodes.length ∧ e.2 < p.nodes.length) :
    Holds
      (fun q => ∃ offsets incidents, Rows p.nodes.length (placements 0 endpoints) offsets incidents ∧
        q = { p with
          incidentOffsets := offsets
          incidentFacts := incidents
          incidentDelta := fun _ => none })
      (Overflows (2 * endpoints.length < 2 ^ 64)) (p.setIncidents endpoints) := by
  have hbad : ∀ e, Overflows ((placements 0 endpoints).length < 2 ^ 64) e →
      Overflows (2 * endpoints.length < 2 ^ 64) e := by
    rintro e ⟨he, hsmall⟩
    have := placements_length endpoints 0
    exact ⟨he, by omega⟩
  have hcount := countIncidents_holds endpoints hlt 0 (Counted.nil p.nodes.length) rfl
  unfold MemoryProjection.setIncidents
  refine (hcount.mono (fun _ h => h) hbad).bind fun offsets hcounted => ?_
  have hsum := sumOffsets_holds (placements_lt endpoints hlt 0) (offsets.length - 1) 0
    (by rw [hcounted.length]; omega) hcounted.summed
  refine (hsum.mono (fun _ h => h) hbad).bind fun offsets hsummed => ?_
  have hlen := hsummed.length
  have hlast : offsets.getLastD 0 = start (placements 0 endpoints) p.nodes.length := by
    rw [List.getLastD_eq_getLast?, List.getLast?_eq_getElem?, hlen, Nat.add_sub_cancel,
      hsummed.done _ le_rfl]
    rfl
  rw [sliceAt_of_le (Nat.zero_le _) (by omega), hlast]
  simp only [List.drop_zero, Nat.sub_zero]
  have hnil : Filled p.nodes.length (placements 0 endpoints) [] (offsets.take p.nodes.length)
      (List.replicate (start (placements 0 endpoints) p.nodes.length) 0) :=
    Filled.nil (by rw [List.length_take]; omega)
      (fun i hi => by rw [List.getElem?_take_of_lt hi, hsummed.done i hi.le]) List.length_replicate
  obtain ⟨cursor, incidents, hplace, hfilled⟩ :=
    placeIncidents_eq endpoints hlt 0 hnil (List.nil_append _).symm
  apply holds_ok_bind
  rw [hplace]
  refine ⟨offsets, incidents, ⟨?_, hfilled.items_length, fun i hi => hfilled.slice hi⟩, rfl⟩
  apply List.ext_getElem?
  intro i
  by_cases hi : i < p.nodes.length + 1
  · rw [hsummed.done i (by omega), List.getElem?_map, List.getElem?_range hi]
    rfl
  · rw [List.getElem?_eq_none (by omega), List.getElem?_eq_none (by simp; omega)]

end WeavatrixMemory.Projection.Incidents
