import WeavatrixMemory.Common
import WeavatrixMemory.Projection.Invariant

namespace WeavatrixMemory.Projection.History

open Error Identity Domain Index State Memory Admission Invariant

theorem mem_of_maxBy {α : Type} {le : α → α → Bool} {xs : List α} {a : α} (h : maxBy le xs = some a) :
    a ∈ xs := by
  cases xs with
  | nil => cases h
  | cons x xs =>
      rw [maxBy, Option.some.injEq] at h
      subst h
      induction xs generalizing x with
      | nil => exact List.mem_cons_self
      | cons y ys ih =>
          rw [List.foldl_cons]
          rcases List.mem_cons.mp (ih (if le x y then y else x)) with h | h
          · rw [h]
            split
            · exact List.mem_cons_of_mem _ List.mem_cons_self
            · exact List.mem_cons_self
          · exact List.mem_cons_of_mem _ (List.mem_cons_of_mem _ h)

theorem maxBy_eq_none {α : Type} {le : α → α → Bool} {xs : List α} : maxBy le xs = none ↔ xs = [] := by
  cases xs <;> simp [maxBy]

def EntityKnown (p : MemoryProjection) (id : EntityId) (knownAt : Timestamp) : Prop :=
  ∃ history ∈ p.nodes, history.id = id ∧ ∃ revision ∈ history.revisions, revision.recordedAt ≤ knownAt

instance (p : MemoryProjection) (id : EntityId) (knownAt : Timestamp) :
    Decidable (EntityKnown p id knownAt) :=
  inferInstanceAs (Decidable (∃ _ ∈ _, _))

theorem visibleRevision_eq_none {history : NodeHistory} {knownAt : Timestamp} :
    visibleRevision history knownAt = none ↔
      ∀ revision ∈ history.revisions, knownAt < revision.recordedAt := by
  unfold visibleRevision
  rw [Option.map_eq_none_iff, maxBy_eq_none, List.filter_eq_nil_iff]
  simp only [decide_eq_true_eq, not_le]

theorem visibleRevision_id {p : MemoryProjection} (hp : Valid p) {history : NodeHistory}
    (hh : history ∈ p.nodes) {knownAt : Timestamp} {node : MemoryNode}
    (h : visibleRevision history knownAt = some node) : node.id = history.id := by
  obtain ⟨revision, hr, rfl⟩ := Option.map_eq_some_iff.mp h
  have hm := (List.mem_filter.mp (mem_of_maxBy hr)).1
  exact (checkRevisions_eq_ok.mp (hp.sound.revisions history hh) revision hm).2

def visibleNodes (p : MemoryProjection) (knownAt : Timestamp) : List MemoryNode :=
  p.nodes.filterMap (visibleRevision · knownAt)

theorem mem_visibleNodes_ids {p : MemoryProjection} (hp : Valid p) {knownAt : Timestamp} {id : EntityId} :
    id ∈ (visibleNodes p knownAt).map (·.id) ↔ EntityKnown p id knownAt := by
  simp only [visibleNodes, List.mem_map, List.mem_filterMap]
  constructor
  · rintro ⟨node, ⟨history, hh, hv⟩, rfl⟩
    refine ⟨history, hh, (visibleRevision_id hp hh hv).symm, ?_⟩
    by_contra hne
    push Not at hne
    rw [visibleRevision_eq_none.mpr hne] at hv
    cases hv
  · rintro ⟨history, hh, rfl, revision, hr, hk⟩
    cases hv : visibleRevision history knownAt with
    | none => exact absurd (visibleRevision_eq_none.mp hv revision hr) (not_lt.mpr hk)
    | some node => exact ⟨node, ⟨history, hh, hv⟩, visibleRevision_id hp hh hv⟩

/-- The view, with the shortcut for fully visible node sets taken out: a fact is in view if it is
active and both of its ends are known. -/
theorem view_eq {p : MemoryProjection} (hp : Valid p) (clock : ProjectionClock) :
    view p clock = ⟨visibleNodes p clock.knownAt, p.facts.filter fun fact =>
      (EntityKnown p fact.source clock.knownAt ∧ EntityKnown p fact.target clock.knownAt) &&
        factIsActive p fact clock⟩ := by
  unfold view viewRef
  simp only [MemoryView.mk.injEq]
  refine ⟨rfl, List.filter_congr fun fact hf => ?_⟩
  congr 1
  rw [Bool.eq_iff_iff, decide_eq_true_eq, ← mem_visibleNodes_ids hp, ← mem_visibleNodes_ids hp]
  by_cases hall : (visibleNodes p clock.knownAt).length = p.nodes.length
  · have hsome : ∀ history ∈ p.nodes, (visibleRevision history clock.knownAt).isSome :=
      List.filterMap_length_eq_length.mp hall
    have hknown (id : EntityId) (hid : id ∈ p.nodes.map NodeHistory.id) :
        id ∈ (visibleNodes p clock.knownAt).map (·.id) := by
      obtain ⟨history, hh, rfl⟩ := List.mem_map.mp hid
      obtain ⟨node, hv⟩ := Option.isSome_iff_exists.mp (hsome history hh)
      exact List.mem_map.mpr ⟨node, List.mem_filterMap.mpr ⟨history, hh, hv⟩, visibleRevision_id hp hh hv⟩
    obtain ⟨hs, ht⟩ := hp.sound.endpoints fact hf
    unfold visibleNodes at hall hknown
    simp [hall, visibleNodes, hknown _ hs, hknown _ ht]
  · unfold visibleNodes at hall
    simp [hall, visibleNodes]

theorem factIsActive_iff {p : MemoryProjection} {fact : MemoryFact} {clock : ProjectionClock} :
    factIsActive p fact clock = true ↔ fact.recordedAt ≤ clock.knownAt ∧ fact.validFrom ≤ clock.validAt ∧
      (∀ until_, fact.validUntil = some until_ → clock.validAt < until_) ∧
      (∀ change, p.supersessions[fact.id]? = some change →
        clock.knownAt < change.recordedAt ∨ clock.validAt < change.validFrom) ∧
      ∀ change, p.retractions[fact.id]? = some change →
        clock.knownAt < change.recordedAt ∨ clock.validAt < change.validUntil := by
  unfold factIsActive
  split
  · rename_i h
    simp only [Bool.false_eq_true, false_iff]
    rintro ⟨hr, hv, _⟩
    rcases h with h | h
    · exact absurd hr (not_le.mpr h)
    · exact absurd hv (not_le.mpr h)
  · rename_i h
    rw [not_or, not_lt, not_lt] at h
    simp only [h.1, h.2, true_and]
    cases hu : fact.validUntil <;> cases hs : p.supersessions[fact.id]? <;>
      cases hr : p.retractions[fact.id]? <;> simp

variable {p q : MemoryProjection} {knownAt : Timestamp}

theorem view_congr (hp : Valid p) (hq : Valid q) (hn : visibleNodes q knownAt = visibleNodes p knownAt)
    {extra : List MemoryFact} (hf : q.facts = p.facts ++ extra) (validAt : Timestamp)
    (hextra : ∀ fact ∈ extra, factIsActive q fact ⟨validAt, knownAt⟩ = false)
    (hactive : ∀ fact ∈ p.facts, EntityKnown p fact.source knownAt → EntityKnown p fact.target knownAt →
      factIsActive q fact ⟨validAt, knownAt⟩ = factIsActive p fact ⟨validAt, knownAt⟩) :
    view q ⟨validAt, knownAt⟩ = view p ⟨validAt, knownAt⟩ := by
  have hknown (id : EntityId) : EntityKnown q id knownAt ↔ EntityKnown p id knownAt := by
    rw [← mem_visibleNodes_ids hq, ← mem_visibleNodes_ids hp, hn]
  have hnone : extra.filter (fun fact => (EntityKnown q fact.source knownAt ∧
      EntityKnown q fact.target knownAt) && factIsActive q fact ⟨validAt, knownAt⟩) = [] := by
    rw [List.filter_eq_nil_iff]
    intro fact hm
    simp [hextra fact hm]
  rw [view_eq hp, view_eq hq, hf, List.filter_append, hnone, List.append_nil, hn]
  refine congrArg _ (List.filter_congr fun fact hm => ?_)
  simp only [hknown]
  by_cases hends : EntityKnown p fact.source knownAt ∧ EntityKnown p fact.target knownAt
  · rw [hactive fact hm hends.1 hends.2]
  · simp only [decide_eq_false hends, Bool.false_and]

theorem visibleRevision_append (history : NodeHistory) {revision : NodeRevision}
    (h : knownAt < revision.recordedAt) :
    visibleRevision { history with later := history.later ++ [revision] } knownAt =
      visibleRevision history knownAt := by
  unfold visibleRevision NodeHistory.revisions
  have hr : ¬ revision.recordedAt ≤ knownAt := not_le.mpr h
  simp [List.filter_cons, List.filter_append, hr]

theorem visibleNodes_revise {index : Nat} {history : NodeHistory} (hs : p.nodes[index]? = some history)
    {revision : NodeRevision} (h : knownAt < revision.recordedAt) :
    visibleNodes (Change.commit p (.revise index history revision)) knownAt = visibleNodes p knownAt := by
  have hmap (nodes : List NodeHistory) : nodes.filterMap (visibleRevision · knownAt) =
      (nodes.map (visibleRevision · knownAt)).filterMap id := by
    rw [List.filterMap_map]
    rfl
  obtain ⟨hlt, he⟩ := List.getElem?_eq_some_iff.mp hs
  have hlt' : index < (p.nodes.map (visibleRevision · knownAt)).length := by rwa [List.length_map]
  have hat : (p.nodes.map (visibleRevision · knownAt))[index] = visibleRevision history knownAt := by
    rw [List.getElem_map, he]
  unfold visibleNodes Change.commit
  rw [hmap, hmap, List.map_set, visibleRevision_append history h, ← hat, List.set_getElem_self]

theorem visibleNodes_add {revision : NodeRevision} (h : knownAt < revision.recordedAt) :
    visibleNodes (Change.commit p (.add revision)) knownAt = visibleNodes p knownAt := by
  have hnone : visibleRevision (NodeHistory.new revision) knownAt = none := by
    rw [visibleRevision_eq_none]
    exact List.forall_mem_singleton.mpr h
  unfold visibleNodes Change.commit
  simp only [List.filterMap_append, List.filterMap_cons, hnone, List.filterMap_nil, List.append_nil]

theorem factIsActive_record {fact : MemoryFact} {source target : Nat} (ha : FactAdmitted p fact source target)
    (h : knownAt < fact.recordedAt) (other : MemoryFact) (validAt : Timestamp) :
    factIsActive (Change.commit p (.record fact source target)) other ⟨validAt, knownAt⟩ =
      factIsActive p other ⟨validAt, knownAt⟩ := by
  rw [Bool.eq_iff_iff, factIsActive_iff, factIsActive_iff]
  refine and_congr_right fun _ => and_congr_right fun _ => and_congr_right fun _ =>
    and_congr_left fun _ => ?_
  simp only [Change.commit, supersede]
  cases hs : fact.supersedes with
  | none => rfl
  | some prior =>
      by_cases he : prior = other.id
      · have hfresh : p.supersessions[other.id]? = none := he ▸ (ha.prior prior hs).2
        simp [he, hfresh, h]
      · have hc : compare prior other.id ≠ .eq := fun hc => he (Std.LawfulEqOrd.eq_of_compare hc)
        simp [Std.ExtTreeMap.getElem?_insert, hc]

/-- At the given time the fact is hidden, from its retraction on, by that retraction and by nothing
else. -/
structure HeldByRetraction (p : MemoryProjection) (knownAt : Timestamp) (fact : MemoryFact)
    (retraction : Retraction) : Prop where
  retracted : p.retractions[fact.id]? = some retraction
  retraction_known : retraction.recordedAt ≤ knownAt
  fact_known : fact.recordedAt ≤ knownAt
  source_known : EntityKnown p fact.source knownAt
  target_known : EntityKnown p fact.target knownAt
  unexpired : ∀ until_, fact.validUntil = some until_ → retraction.validUntil < until_
  unreplaced : ∀ change, p.supersessions[fact.id]? = some change →
    knownAt < change.recordedAt ∨ retraction.validUntil < change.validFrom

/-- The event retracts once more a fact that its earlier retraction hides. -/
def Rewrites (p : MemoryProjection) (knownAt : Timestamp) : MemoryEvent → Prop
  | .factRetracted factId _ _ =>
      ∃ fact ∈ p.facts, fact.id = factId ∧ ∃ retraction, HeldByRetraction p knownAt fact retraction
  | _ => False

theorem retractions_retract_ne {factId id : FactId} (h : factId ≠ id) (retraction : Retraction) :
    (Change.commit p (.retract factId retraction)).retractions[id]? = p.retractions[id]? := by
  have hc : compare factId id ≠ .eq := fun hc => h (Std.LawfulEqOrd.eq_of_compare hc)
  simp [Change.commit, Std.ExtTreeMap.getElem?_insert, hc]

theorem retractions_retract_self (factId : FactId) (retraction : Retraction) :
    (Change.commit p (.retract factId retraction)).retractions[factId]? = some retraction := by
  simp [Change.commit]

theorem view_retract_iff (hp : Valid p) {factId : FactId} {retraction : Retraction}
    (hq : Valid (Change.commit p (.retract factId retraction))) (h : knownAt < retraction.recordedAt) :
    (∀ validAt, view (Change.commit p (.retract factId retraction)) ⟨validAt, knownAt⟩ =
        view p ⟨validAt, knownAt⟩) ↔
      ¬ ∃ fact ∈ p.facts, fact.id = factId ∧ ∃ earlier, HeldByRetraction p knownAt fact earlier := by
  constructor
  · rintro hview ⟨fact, hf, rfl, earlier, held⟩
    have hfrom : fact.validFrom < earlier.validUntil := by
      obtain ⟨other, ho, hid, hlt⟩ := hp.sound.retractions _ _ held.retracted
      rwa [hp.indexed.fact_unique ho hf hid] at hlt
    have hmem : fact ∈ (view (Change.commit p (.retract fact.id retraction))
        ⟨earlier.validUntil, knownAt⟩).facts := by
      rw [view_eq hq]
      refine List.mem_filter.mpr ⟨hf, ?_⟩
      rw [Bool.and_eq_true, decide_eq_true_eq, factIsActive_iff]
      refine ⟨⟨held.source_known, held.target_known⟩, held.fact_known, hfrom.le, held.unexpired,
        held.unreplaced, fun change hc => ?_⟩
      rw [retractions_retract_self, Option.some.injEq] at hc
      exact .inl (hc ▸ h)
    rw [hview, view_eq hp, List.mem_filter, Bool.and_eq_true, factIsActive_iff] at hmem
    rcases hmem.2.2.2.2.2.2 earlier held.retracted with hr | hv
    · exact absurd held.retraction_known (not_le.mpr hr)
    · exact absurd hv (lt_irrefl _)
  · intro hheld validAt
    refine view_congr hp hq (by rfl) (List.append_nil _).symm validAt
      (fun _ h => absurd h List.not_mem_nil) fun fact hf hsource htarget => ?_
    by_cases hid : factId = fact.id
    · subst hid
      rw [Bool.eq_iff_iff, factIsActive_iff, factIsActive_iff]
      refine ⟨fun ⟨hr, hv, hu, hs, _⟩ => ⟨hr, hv, hu, hs, fun earlier hc => ?_⟩,
        fun ⟨hr, hv, hu, hs, _⟩ => ⟨hr, hv, hu, hs, fun change hc => ?_⟩⟩
      · -- An earlier retraction that hides the fact would be the one that this event overwrites.
        by_contra hne
        rw [not_or, not_lt, not_lt] at hne
        exact hheld ⟨fact, hf, rfl, earlier, hc, hne.1, hr, hsource, htarget,
          fun until_ he => lt_of_le_of_lt hne.2 (hu until_ he),
          fun change he => (hs change he).imp_right (lt_of_le_of_lt hne.2)⟩
      · rw [retractions_retract_self, Option.some.injEq] at hc
        exact .inl (hc ▸ h)
    · rw [Bool.eq_iff_iff, factIsActive_iff, factIsActive_iff, retractions_retract_ne hid]
      rfl

theorem view_applied (event : StoredEvent MemoryEvent) (change : Change) (clock : ProjectionClock) :
    view (change.applied p event) clock = view (change.commit p) clock := rfl

theorem view_admitted_iff (hp : Valid p) {event : StoredEvent MemoryEvent} {change : Change}
    (h : Admitted p event.metadata event.payload change) (hk : knownAt < event.metadata.recordedAt) :
    (∀ validAt, view (change.applied p event) ⟨validAt, knownAt⟩ = view p ⟨validAt, knownAt⟩) ↔
      ¬ Rewrites p knownAt event.payload := by
  have hq : Valid (change.commit p) := ⟨{ (hp.applied h).sound with }, { (hp.applied h).indexed with }⟩
  simp only [view_applied]
  rcases event with ⟨metadata, payload⟩
  have hnil : ∀ fact ∈ ([] : List MemoryFact), ∀ validAt,
      factIsActive (change.commit p) fact ⟨validAt, knownAt⟩ = false := fun _ h => absurd h List.not_mem_nil
  cases h with
  | revise _ _ hs =>
      refine iff_of_true (fun validAt => ?_) id
      exact view_congr hp hq (visibleNodes_revise hs hk) (List.append_nil _).symm validAt
        (fun fact hf => hnil fact hf validAt) fun _ _ _ _ => rfl
  | add _ _ =>
      refine iff_of_true (fun validAt => ?_) id
      exact view_congr hp hq (visibleNodes_add hk) (List.append_nil _).symm validAt
        (fun fact hf => hnil fact hf validAt) fun _ _ _ _ => rfl
  | @record fact source target hr _ _ ha =>
      have hlate : knownAt < fact.recordedAt := by rwa [hr]
      refine iff_of_true (fun validAt => ?_) id
      refine view_congr hp hq (by rfl) (by rfl) validAt ?_ fun other _ _ _ =>
        factIsActive_record ha hlate other validAt
      refine List.forall_mem_singleton.mpr (Bool.eq_false_iff.mpr fun hactive => ?_)
      exact absurd (factIsActive_iff.mp hactive).1 (not_le.mpr hlate)
  | retract _ _ _ _ _ => exact view_retract_iff hp hq hk

/-- A run of accepted events, all of them recorded after the given time, none of which rewrites. -/
inductive Extends (knownAt : Timestamp) (p : MemoryProjection) : MemoryProjection → Prop
  | refl : Extends knownAt p p
  | step {q r : MemoryProjection} (event : StoredEvent MemoryEvent) (h : Extends knownAt p q)
      (later : knownAt < event.metadata.recordedAt)
      (accepted : apply event q = .ok () r ∨ applyOwned event q = .ok () r)
      (keeps : ¬ Rewrites q knownAt event.payload) : Extends knownAt p r

theorem accepted_eq {event : StoredEvent MemoryEvent} {r : MemoryProjection}
    (h : apply event q = .ok () r ∨ applyOwned event q = .ok () r) :
    ∃ change, Admitted q event.metadata event.payload change ∧ r = change.applied q event := by
  rw [applyOwned_eq, ← apply_eq, or_self] at h
  obtain ⟨change, _, ha, hr⟩ := apply_eq_ok.mp h
  exact ⟨change, ha, hr⟩

theorem Extends.view_eq (hp : Valid p) (h : Extends knownAt p q) :
    Valid q ∧ ∀ validAt, view q ⟨validAt, knownAt⟩ = view p ⟨validAt, knownAt⟩ := by
  induction h with
  | refl => exact ⟨hp, fun _ => rfl⟩
  | step event _ later accepted keeps ih =>
      obtain ⟨change, ha, rfl⟩ := accepted_eq accepted
      refine ⟨ih.1.applied ha, fun validAt => ?_⟩
      rw [(view_admitted_iff ih.1 ha later).mpr keeps validAt, ih.2 validAt]

/-- Of the events recorded after a time, exactly a renewed retraction of a hidden fact changes the
view of that time, and runs without such events leave it alone. -/
theorem view_of_past_iff (seeds : Seeds) (p : MemoryProjection) (hp : Reached seeds p) (knownAt : Timestamp) :
    (∀ event q, knownAt < event.metadata.recordedAt →
      (apply event p = .ok () q ∨ applyOwned event p = .ok () q) →
      ((∀ validAt, view q ⟨validAt, knownAt⟩ = view p ⟨validAt, knownAt⟩) ↔
        ¬ Rewrites p knownAt event.payload)) ∧
    ∀ q, Extends knownAt p q → ∀ validAt, view q ⟨validAt, knownAt⟩ = view p ⟨validAt, knownAt⟩ := by
  refine ⟨fun event q hk h => ?_, fun q h => (h.view_eq hp.valid).2⟩
  obtain ⟨change, ha, rfl⟩ := accepted_eq h
  exact view_admitted_iff hp.valid ha hk

theorem view_of_past_retracted_once :
    (∀ validAt, view (after (apply Common.retractedAgain (applyAll ⟨1, 2⟩ Common.retractedOnce)))
        ⟨validAt, Common.ts 45⟩ = view (applyAll ⟨1, 2⟩ Common.retractedOnce) ⟨validAt, Common.ts 45⟩) ↔
      ¬ Rewrites (applyAll ⟨1, 2⟩ Common.retractedOnce) (Common.ts 45) Common.retractedAgain.payload :=
  (view_of_past_iff ⟨1, 2⟩ _ (reached_applyAll _ _) (Common.ts 45)).1 Common.retractedAgain _ (by decide)
    (.inl (eq_ok_of_accepted (by decide +kernel)))

/-- A renewed retraction brings the fact back into a view of the time between the two. -/
theorem view_of_past_rewritten :
    Reached ⟨1, 2⟩ (applyAll ⟨1, 2⟩ Common.retractedOnce) ∧
      Common.ts 55 < Common.retractedAgain.metadata.recordedAt ∧
      ∃ q, apply Common.retractedAgain (applyAll ⟨1, 2⟩ Common.retractedOnce) = .ok () q ∧
        (view (applyAll ⟨1, 2⟩ Common.retractedOnce) ⟨Common.ts 40, Common.ts 55⟩).facts = [] ∧
        (view q ⟨Common.ts 40, Common.ts 55⟩).facts =
          [Common.fact Common.factOne (Common.ts 10) (Common.ts 20) none] :=
  ⟨reached_applyAll _ _, by decide, _, eq_ok_of_accepted (by decide +kernel), by decide +kernel,
    by decide +kernel⟩

end WeavatrixMemory.Projection.History
