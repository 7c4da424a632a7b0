import WeavatrixMemory.Analytics.Belief
import WeavatrixMemory.Analytics.Consolidation
import WeavatrixMemory.Analytics.Drift
import WeavatrixMemory.Analytics.Gaps
import WeavatrixMemory.Context.Dependence

namespace WeavatrixMemory.Analytics.Past

open Error Identity Domain Sorting GraphProjection Analytics.Model Analytics.Timeline Drift Cascade Belief
open Consolidation Gaps
open Projection.State Projection.Memory Projection.Admission Projection.Invariant Projection.History
open Context.Compiler Context.Dependence

def planUpTo (position : Option UInt64) (plan : ConsolidationPlan) : ConsolidationPlan :=
  { plan with sourcePosition := position }

def contextUpTo {Graph : Type} (position : Option UInt64) (bundle : ContextBundle Graph) : ContextBundle Graph :=
  { bundle with receipt := { bundle.receipt with sourcePosition := position } }

/-- What the one memory answers at a time, the other one answers too. A plan and a context say besides how far
the memory goes. -/
structure Stands (p q : MemoryProjection) (knownAt : Timestamp) : Prop where
  drift : ∀ source relation, drift q source relation knownAt = drift p source relation knownAt
  grows : ∀ source relation later report report', knownAt ≤ later → Drift.drift p source relation knownAt = .ok report →
    Drift.drift q source relation later = .ok report' →
    report.snapshots <+: report'.snapshots ∧ report.correctionCount ≤ report'.correctionCount
  belief : ∀ (crate : GraphCrate) (adjacency : Adjacency crate) request, request.clock.knownAt = knownAt →
    beliefRevision adjacency q request = beliefRevision adjacency p request
  gaps : ∀ (crate : GraphCrate) (traversal : Traversal crate) request, request.clock.knownAt = knownAt →
    reasoningGaps traversal q request = reasoningGaps traversal p request
  plan : ∀ (crate : GraphCrate) (queries : GraphQueries crate) validAt maxActions,
    consolidationPlan queries q ⟨validAt, knownAt⟩ maxActions =
      (consolidationPlan queries p ⟨validAt, knownAt⟩ maxActions).map (planUpTo q.lastGlobalPosition)
  context : ∀ (crate : GraphCrate) estimator request, request.knownAt = knownAt →
    compile (projectGraph crate) estimator q request =
      (compile (projectGraph crate) estimator p request).map (contextUpTo q.lastGlobalPosition)

variable {p q : MemoryProjection} {knownAt : Timestamp} {source : EntityId} {relation : Text}

theorem facts_of_admitted {event : StoredEvent MemoryEvent} {change : Change}
    (h : Admitted p event.metadata event.payload change) (hk : knownAt < event.metadata.recordedAt) :
    ∃ extra, (change.applied p event).facts = p.facts ++ extra ∧ ∀ fact ∈ extra, knownAt < fact.recordedAt := by
  rcases event with ⟨metadata, payload⟩
  cases h with
  | revise | add | retract => exact ⟨[], (List.append_nil _).symm, fun _ h => absurd h List.not_mem_nil⟩
  | @record fact source target hrecorded =>
      refine ⟨[fact], rfl, List.forall_mem_singleton.mpr ?_⟩
      rwa [hrecorded]

theorem facts_of_extends (h : Extends knownAt p q) :
    ∃ extra, q.facts = p.facts ++ extra ∧ ∀ fact ∈ extra, knownAt < fact.recordedAt := by
  induction h with
  | refl => exact ⟨[], (List.append_nil _).symm, fun _ h => absurd h List.not_mem_nil⟩
  | step event _ hlater haccepted _ ih =>
      obtain ⟨change, hadmitted, rfl⟩ := accepted_eq haccepted
      obtain ⟨extra, hextra, hlate⟩ := ih
      obtain ⟨more, hmore, hlate'⟩ := facts_of_admitted hadmitted hlater
      refine ⟨extra ++ more, by rw [hmore, hextra, List.append_assoc], fun fact hfact => ?_⟩
      exact (List.mem_append.mp hfact).elim (hlate fact) (hlate' fact)

theorem filter_of_extends (h : Extends knownAt p q) {P : MemoryFact → Bool}
    (hknown : ∀ fact, P fact = true → fact.recordedAt ≤ knownAt) : q.facts.filter P = p.facts.filter P := by
  obtain ⟨extra, hextra, hlate⟩ := facts_of_extends h
  have hnone : extra.filter P = [] := by
    rw [List.filter_eq_nil_iff]
    exact fun fact hfact hkept => absurd (hlate fact hfact) (not_lt.mpr (hknown fact hkept))
  rw [hextra, List.filter_append, hnone, List.append_nil]

theorem knownFacts_of_extends (h : Extends knownAt p q) : knownFacts q knownAt = knownFacts p knownAt :=
  filter_of_extends h fun _ => of_decide_eq_true

theorem drift_of_extends (h : Extends knownAt p q) (source : EntityId) (relation : Text) :
    drift q source relation knownAt = drift p source relation knownAt := by
  rw [drift, drift, filter_of_extends h fun _ hkept => (of_decide_eq_true hkept).2.2]

theorem snapshotsFrom_append (first : Option MemoryFact) (facts rest : List MemoryFact) :
    snapshotsFrom first (facts ++ rest) = snapshotsFrom first facts ++
      snapshotsFrom (facts.getLast?.or first) rest := by
  induction facts generalizing first with
  | nil => rfl
  | cons fact facts ih =>
      have hlast : (fact :: facts).getLast?.or first = facts.getLast?.or (some fact) := by
        rw [List.getLast?_cons]
        cases facts.getLast? <;> rfl
      rw [List.cons_append, snapshotsFrom, snapshotsFrom, ih, hlast, List.cons_append]

theorem drift_grows (hp : Valid p) {earlier later : Timestamp} (hle : earlier ≤ later) {report report' : DriftReport}
    (h : drift p source relation earlier = .ok report) (h' : drift p source relation later = .ok report') :
    report.snapshots <+: report'.snapshots ∧ report.correctionCount ≤ report'.correctionCount := by
  obtain ⟨hsnapshots, hcount⟩ := drift_eq_ok h
  obtain ⟨hsnapshots', hcount'⟩ := drift_eq_ok h'
  have hchain : chain p earlier ⟨source, relation⟩ =
      (chain p later ⟨source, relation⟩).filter fun fact => fact.recordedAt ≤ earlier := by
    rw [chain, chain, knownFacts, knownFacts, List.filter_filter, List.filter_filter, List.filter_filter]
    refine List.filter_congr fun fact _ => ?_
    by_cases hearly : fact.recordedAt ≤ earlier
    · simp [hearly, le_trans hearly hle]
    · simp [hearly]
  have hprefix : timeline (chain p earlier ⟨source, relation⟩) <+: timeline (chain p later ⟨source, relation⟩) := by
    rw [hchain]
    refine @prefix_sort _ timeOrder _ _ _ (fun a ha b hb heq => (distinct_chain hp _ _).eq ha hb (id_of_timeOrder heq))
      fun a b hle hearly => ?_
    refine decide_eq_true (le_trans ?_ (of_decide_eq_true hearly))
    by_contra hlate
    have hgt : compare a.recordedAt b.recordedAt = .gt := compare_gt_iff_gt.mpr (not_le.mp hlate)
    rw [timeOrder, hgt] at hle
    cases hle
  obtain ⟨rest, hrest⟩ := hprefix
  have hsame : report.snapshots <+: report'.snapshots := by
    rw [hsnapshots, hsnapshots', ← hrest, snapshotsFrom_append]
    exact List.prefix_append _ _
  refine ⟨hsame, ?_⟩
  rw [hcount, hcount']
  exact (hsame.sublist.filter _).length_le

theorem belief_of_view {crate : GraphCrate} (adjacency : Adjacency crate) {request : BeliefRevisionRequest}
    (h : view q request.clock = view p request.clock) :
    beliefRevision adjacency q request = beliefRevision adjacency p request := by
  rw [beliefRevision, beliefRevision, h]

theorem gaps_of_view {crate : GraphCrate} (traversal : Traversal crate) {request : ReasoningGapRequest}
    (h : view q request.clock = view p request.clock)
    (hknown : knownFacts q request.clock.knownAt = knownFacts p request.clock.knownAt) :
    reasoningGaps traversal q request = reasoningGaps traversal p request := by
  have hgaps (graph : crate.Graph) : gapsOf traversal q graph request = gapsOf traversal p graph request := by
    rw [gapsOf, gapsOf, unstableGaps, unstableGaps, h, hknown]
  simp only [reasoningGaps, h, hgaps]

theorem map_of_bind {α β γ : Type} (x : Result α) (f : α → Result β) (g : β → γ) :
    (x >>= f).map g = x >>= fun a => (f a).map g := by
  cases x <;> rfl

theorem plan_of_view {crate : GraphCrate} (queries : GraphQueries crate) {clock : ProjectionClock}
    (h : view q clock = view p clock) (hknown : knownFacts q clock.knownAt = knownFacts p clock.knownAt)
    (maxActions : Nat) : consolidationPlan queries q clock maxActions =
      (consolidationPlan queries p clock maxActions).map (planUpTo q.lastGlobalPosition) := by
  have hactions (graph : crate.Graph) : actionsOf queries q clock graph = actionsOf queries p clock graph := by
    rw [actionsOf, actionsOf, revisionActions, revisionActions, h, hknown]
  rw [consolidationPlan, consolidationPlan, map_of_bind]
  refine congrArg _ (funext fun _ => ?_)
  rw [map_of_bind, h]
  refine congrArg _ (funext fun graph => ?_)
  rw [hactions]
  rfl

theorem context_of_sameView {request : ContextRequest} (h : SameView p q request) {Graph : Type}
    (projectGraph : MemoryView → Result Graph) (estimator : TokenEstimator) :
    compile projectGraph estimator q request =
      (compile projectGraph estimator p request).map (contextUpTo q.lastGlobalPosition) := by
  simp only [compile, h.neighborhood_eq, map_of_bind]
  rfl

/-- What was asked of a time gets the same answers whatever becomes known later, unless a retraction is renewed
that was all that hid a fact. -/
theorem past_stands (seeds : Seeds) (p q : MemoryProjection) (hp : Reached seeds p) (knownAt : Timestamp)
    (h : Extends knownAt p q) : Stands p q knownAt := by
  obtain ⟨hq, hview⟩ := h.view_eq hp.valid
  have hknown := knownFacts_of_extends h
  refine ⟨drift_of_extends h, fun source relation later report report' hle hreport hreport' => ?_,
    fun crate adjacency request hclock => ?_, fun crate traversal request hclock => ?_,
    fun crate queries validAt maxActions => plan_of_view queries (hview validAt) hknown maxActions,
    fun crate estimator request hclock => ?_⟩
  · rw [← drift_of_extends h] at hreport
    exact drift_grows hq hle hreport hreport'
  · subst hclock
    exact belief_of_view adjacency (hview request.clock.validAt)
  · subst hclock
    exact gaps_of_view traversal (hview request.clock.validAt) hknown
  · subst hclock
    have hsame : viewRef q ⟨request.validAt, request.knownAt⟩ = viewRef p ⟨request.validAt, request.knownAt⟩ :=
      hview request.validAt
    refine context_of_sameView ⟨hp.valid, hq, ?_, ?_⟩ _ estimator
    · exact List.Perm.of_eq (congrArg MemoryView.nodes hsame.symm)
    · exact List.Perm.of_eq (congrArg MemoryView.facts hsame.symm)

def corrected : StoredEvent MemoryEvent :=
  Common.stored 3 (Common.event (Common.eventId 3) (Common.ts 50)
    (.factRecorded (Common.fact Common.factTwo (Common.ts 10) (Common.ts 50) (some Common.factOne))))

theorem past_stands_corrected : ∃ p q, Extends (Common.ts 45) p q ∧
    (view q ⟨Common.ts 60, Common.ts 60⟩).facts ≠ (view p ⟨Common.ts 60, Common.ts 60⟩).facts ∧
    Stands p q (Common.ts 45) := by
  have hextends : Extends (Common.ts 45) (applyAll ⟨1, 2⟩ (Common.retractedOnce.take 3))
      (after (apply corrected (applyAll ⟨1, 2⟩ (Common.retractedOnce.take 3)))) :=
    .step corrected .refl (by decide) (.inl (eq_ok_of_accepted (by decide +kernel))) id
  exact ⟨_, _, hextends, by decide +kernel, past_stands ⟨1, 2⟩ _ _ (reached_applyAll _ _) (Common.ts 45) hextends⟩

end WeavatrixMemory.Analytics.Past
