import WeavatrixMemory.Analytics.Drift
import WeavatrixMemory.Analytics.Findings
import WeavatrixMemory.Context.Interleaving

namespace WeavatrixMemory.Analytics.Converging

open Error Identity Domain Sorting Bitemporal Breadth GraphProjection Analytics.Model Analytics.Timeline Drift Cascade
open Presented Belief Consolidation Savings Gaps Queried Maintenance Findings Context.Dependence Context.Interleaving
open Projection.State Projection.Memory Projection.Invariant Projection.Replay Projection.Views

variable {crate : GraphCrate} {adjacency : Adjacency crate} {ends : Ends crate} {queries : GraphQueries crate}
  {traversal : Traversal crate} {graph : crate.Graph} {p q : MemoryProjection} {shown other : MemoryView}
  {known known' : List MemoryFact} {request : BeliefRevisionRequest}

theorem drift_eq (h : Same p q) (source : EntityId) (relation : Text) (knownAt : Timestamp) :
    drift p source relation knownAt = drift q source relation knownAt := by
  have hfacts : timeline (p.facts.filter fun fact =>
      fact.source = source ∧ fact.relation = relation ∧ fact.recordedAt ≤ knownAt) =
      timeline (q.facts.filter fun fact =>
        fact.source = source ∧ fact.relation = relation ∧ fact.recordedAt ≤ knownAt) :=
    sort_eq_of_perm (h.facts.filter _) fun a ha b hb heq => (distinct_filter h.left _).eq ha hb (id_of_timeOrder heq)
  rw [drift, drift, hfacts]

section Belief

variable {facts others : List MemoryFact} {hypothesis : MemoryFact}

theorem contradictions_eq (h : facts.Perm others) (hdistinct : Distinct facts) :
    contradictions facts hypothesis = contradictions others hypothesis := by
  refine @sort_eq_of_perm _ (compareOn Contradiction.fact) _ _ _ (h.filterMap _) fun a ha b hb heq => ?_
  obtain ⟨fact, hf, hitem⟩ := List.mem_filterMap.mp ha
  obtain ⟨fact', hf', hitem'⟩ := List.mem_filterMap.mp hb
  have hid : fact.id = fact'.id := by
    rw [← contradiction_fact hitem, ← contradiction_fact hitem']
    exact Std.LawfulEqOrd.eq_of_compare heq
  rw [hdistinct.eq hf hf' hid, hitem'] at hitem
  exact (Option.some.inj hitem).symm

theorem kinds_eq {nodes nodes' : List MemoryNode} (h : nodes.Perm nodes')
    (hdistinct : (nodes.map MemoryNode.id).Nodup) :
    kinds nodes = kinds nodes' := by
  refine Std.ExtTreeMap.ext_getElem? fun {id} => Option.ext fun kind => ?_
  rw [getElem?_kinds hdistinct, getElem?_kinds ((h.map MemoryNode.id).nodup_iff.mp hdistinct)]
  exact exists_congr fun node => and_congr_left fun _ => h.mem_iff

theorem adjacent_eq (h : facts.Perm others) : Adjacent facts = Adjacent others := by
  funext u v
  exact propext (exists_congr fun fact => and_congr_left fun _ => h.mem_iff)

theorem listing_effects (h : Lawful adjacency ends) (hp : Valid p)
    (hgraph : projectGraph crate (view p request.clock) = .ok graph) {effects : List CascadeEffect}
    (heffects : cascade adjacency graph (roots (view p request.clock).facts
      (contradictions (view p request.clock).facts request.hypothesis)) request.maxDepth
      request.hypothesis.confidence.basisPoints ((view p request.clock).nodes.length + (roots
        (view p request.clock).facts (contradictions (view p request.clock).facts request.hypothesis)).size + 1) =
      .ok effects) :
    Listing (compareOn CascadeEffect.entity) (fun effect =>
      (Distance (Adjacent (view p request.clock).facts) (Root (view p request.clock).facts request.hypothesis)
        effect.depth effect.entity ∧ effect.depth ≤ request.maxDepth) ∧
      effect.revisedConfidenceBps =
        revisedConfidence request.hypothesis.confidence.basisPoints effect.depth) effects := by
  obtain ⟨hnodes, hfacts, htargets⟩ := view_distinct hp request.clock
  have hpresents := presents_of_projectGraph h hnodes htargets hgraph
  have hroot : ∀ id, id ∈ roots (view p request.clock).facts (contradictions (view p request.clock).facts
      request.hypothesis) ↔ Root (view p request.clock).facts request.hypothesis id := fun id => mem_roots hfacts
  have hlength : ((view p request.clock).nodes.map MemoryNode.id).length = (view p request.clock).nodes.length :=
    List.length_map _
  rw [← hlength] at heffects
  have hlisting := hpresents.listing_cascade (fun root hin => by
    obtain ⟨fact, hf, -, rfl⟩ := (hroot root).mp hin
    exact htargets fact hf) heffects
  simp only [hroot] at hlisting
  exact hlisting

theorem beliefRevision_eq (h : Same p q) (hlawful : Lawful adjacency ends) {report report' : BeliefRevisionReport}
    (hreport : beliefRevision adjacency p request = .ok report)
    (hreport' : beliefRevision adjacency q request = .ok report') : report = report' := by
  obtain ⟨-, -, hreport⟩ := bind_eq_ok.mp hreport
  obtain ⟨graph, hgraph, hreport⟩ := bind_eq_ok.mp hreport
  obtain ⟨effects, heffects, hreport⟩ := bind_eq_ok.mp hreport
  obtain ⟨-, -, hreport'⟩ := bind_eq_ok.mp hreport'
  obtain ⟨graph', hgraph', hreport'⟩ := bind_eq_ok.mp hreport'
  obtain ⟨effects', heffects', hreport'⟩ := bind_eq_ok.mp hreport'
  have hfacts : (view p request.clock).facts.Perm (view q request.clock).facts := h.viewFacts request.clock
  have hnodes : (view p request.clock).nodes.Perm (view q request.clock).nodes := h.viewNodes request.clock
  have hsame : effects = effects' := by
    refine (listing_effects hlawful h.left hgraph heffects).unique
      (listing_effects hlawful h.right hgraph' heffects') fun effect => ?_
    have hroot : Root (view p request.clock).facts request.hypothesis =
        Root (view q request.clock).facts request.hypothesis :=
      funext fun id => propext (exists_congr fun fact => and_congr_left fun _ => hfacts.mem_iff)
    rw [adjacent_eq hfacts, hroot]
  rw [← Except.ok.inj hreport, ← Except.ok.inj hreport', contradictions_eq hfacts (distinct_view h.left), hsame,
    kinds_eq hnodes (view_ids_nodup h.left).1]

end Belief

theorem due_of_perm {action : ConsolidationAction} (hnodes : shown.nodes.Perm other.nodes)
    (hfacts : shown.facts.Perm other.facts) (hknown : known.Perm known') (h : Due shown known action) :
    Due other known' action := by
  cases h with
  | duplicate hlisted htwo =>
      exact .duplicate (hlisted.congr fun fact => and_congr_left fun _ => hfacts.mem_iff) htwo
  | orphan hnode halone =>
      exact .orphan (hnodes.mem_iff.mp hnode) fun fact hfact => halone fact (hfacts.mem_iff.mpr hfact)
  | chain hlisted hlong =>
      exact .chain (hlisted.congr fun fact => and_congr_left fun _ => hknown.mem_iff) hlong

theorem consolidationPlan_eq (h : Same p q) (hanswers : Answers adjacency ends queries traversal)
    {clock : ProjectionClock} {maxActions : Nat} {plan plan' : ConsolidationPlan}
    (hplan : consolidationPlan queries p clock maxActions = .ok plan)
    (hplan' : consolidationPlan queries q clock maxActions = .ok plan') : plan = plan' := by
  obtain ⟨-, -, hplan⟩ := bind_eq_ok.mp hplan
  obtain ⟨graph, hgraph, hplan⟩ := bind_eq_ok.mp hplan
  obtain ⟨-, -, hplan'⟩ := bind_eq_ok.mp hplan'
  obtain ⟨graph', hgraph', hplan'⟩ := bind_eq_ok.mp hplan'
  have hnodes : (view p clock).nodes.Perm (view q clock).nodes := h.viewNodes clock
  have hfacts : (view p clock).facts.Perm (view q clock).facts := h.viewFacts clock
  have hknown : (knownFacts p clock.knownAt).Perm (knownFacts q clock.knownAt) := h.facts.filter _
  have hactions := (listing_actionsOf h.left (tells_of_view hanswers h.left hgraph)).unique
    (listing_actionsOf h.right (tells_of_view hanswers h.right hgraph'))
    fun action => ⟨due_of_perm hnodes hfacts hknown, due_of_perm hnodes.symm hfacts.symm hknown.symm⟩
  rw [← Except.ok.inj hplan, ← Except.ok.inj hplan', hactions, h.position]

theorem lacks_of_perm {request : ReasoningGapRequest} {found : ReasoningGap} (hnodes : shown.nodes.Perm other.nodes)
    (hfacts : shown.facts.Perm other.facts) (hknown : known.Perm known') (h : Lacks shown known request found) :
    Lacks other known' request found := by
  have hsupports (id : EntityId) : supports shown.facts id = supports other.facts id := (hfacts.filter _).length_eq
  have himpact {id : EntityId} {n : Nat} (himpact : Impact shown.facts id n) : Impact other.facts id n := by
    rw [Impact, ← adjacent_eq hfacts]
    exact himpact
  cases h with
  | unjustified hnode hkind hnone hreached =>
      exact .unjustified (hnodes.mem_iff.mp hnode) hkind (hsupports _ ▸ hnone) (himpact hreached)
  | singleSource hnode hkind hfew hreached =>
      rw [hsupports] at hfew ⊢
      exact .singleSource (hnodes.mem_iff.mp hnode) hkind hfew (himpact hreached)
  | lowConfidence hfact hlow hreached => exact .lowConfidence (hfacts.mem_iff.mp hfact) hlow (himpact hreached)
  | stale hfact hold hreached => exact .stale (hfacts.mem_iff.mp hfact) hold (himpact hreached)
  | unstable hlisted hmany hlong hreached =>
      exact .unstable (hlisted.congr fun fact => and_congr_left fun _ => hknown.mem_iff) hmany hlong (himpact hreached)

theorem reasoningGaps_eq (h : Same p q) (hanswers : Answers adjacency ends queries traversal)
    {request : ReasoningGapRequest} {report report' : GapReport}
    (hreport : reasoningGaps traversal p request = .ok report)
    (hreport' : reasoningGaps traversal q request = .ok report') : report = report' := by
  obtain ⟨⟨⟩, hvalid, hreport⟩ := bind_eq_ok.mp hreport
  obtain ⟨graph, hgraph, hreport⟩ := bind_eq_ok.mp hreport
  obtain ⟨-, -, hreport'⟩ := bind_eq_ok.mp hreport'
  obtain ⟨graph', hgraph', hreport'⟩ := bind_eq_ok.mp hreport'
  have hvalid := throwIf_eq_ok.mp hvalid
  rw [not_or, not_or, not_or, Nat.not_lt] at hvalid
  obtain ⟨-, -, hcount, -⟩ := hvalid
  have hnodes : (view p request.clock).nodes.Perm (view q request.clock).nodes := h.viewNodes request.clock
  have hfacts : (view p request.clock).facts.Perm (view q request.clock).facts := h.viewFacts request.clock
  have hknown : (knownFacts p request.clock.knownAt).Perm (knownFacts q request.clock.knownAt) := h.facts.filter _
  have hgaps := (listing_gapsOf h.left (tells_of_view hanswers h.left hgraph) hcount).unique
    (listing_gapsOf h.right (tells_of_view hanswers h.right hgraph') hcount)
    fun found => ⟨lacks_of_perm hnodes hfacts hknown, lacks_of_perm hnodes.symm hfacts.symm hknown.symm⟩
  rw [← Except.ok.inj hreport, ← Except.ok.inj hreport', hgaps, hnodes.length_eq, hfacts.length_eq]

/-- In whatever order concurrent streams have been appended, the analyses of the memories that are replayed from them
come to the same. -/
theorem analyses_converge (seeds seeds' : Seeds) (log log' : List (StoredEvent MemoryEvent)) (p q : MemoryProjection)
    (hp : replay (memory seeds) log = .ok p ∨ replayOwned (memory seeds) log = .ok p)
    (hq : replay (memory seeds') log' = .ok q ∨ replayOwned (memory seeds') log' = .ok q)
    (hstreams : Interleaved Prod.fst (said log) (said log')) (hwrites : WritesApart (said log))
    (hwithdrawals : WithdrawalsApart (said log)) (h : Answers adjacency ends queries traversal) :
    (∀ source relation knownAt, drift p source relation knownAt = drift q source relation knownAt) ∧
    (∀ request report report', beliefRevision adjacency p request = .ok report →
      beliefRevision adjacency q request = .ok report' → report = report') ∧
    (∀ clock maxActions plan plan', consolidationPlan queries p clock maxActions = .ok plan →
      consolidationPlan queries q clock maxActions = .ok plan' → plan = plan') ∧
    ∀ request report report', reasoningGaps traversal p request = .ok report →
      reasoningGaps traversal q request = .ok report' → report = report' := by
  have hsame := same_of_streams hp hq hstreams hwrites hwithdrawals
  exact ⟨drift_eq hsame, fun _ _ _ => beliefRevision_eq hsame h.lawful, fun _ _ _ _ => consolidationPlan_eq hsame h,
    fun _ _ _ => reasoningGaps_eq hsame h⟩

theorem analyses_converge_swapped : ∃ p q report, replay (memory ⟨1, 2⟩) taskFirst = .ok p ∧
    replay (memory ⟨3, 4⟩) fileFirst = .ok q ∧ p.nodes ≠ q.nodes ∧
    reasoningGaps listTraversal p (gapRequest 3) = .ok report ∧
      reasoningGaps listTraversal q (gapRequest 3) = .ok report := by
  obtain ⟨p, q, hp, hq, hne⟩ := exists_swapped
  have hleft :
      (replay (memory ⟨1, 2⟩) taskFirst >>= fun p => reasoningGaps listTraversal p (gapRequest 3)).isOk = true := by
    decide +kernel
  have hright :
      (replay (memory ⟨3, 4⟩) fileFirst >>= fun p => reasoningGaps listTraversal p (gapRequest 3)).isOk = true := by
    decide +kernel
  rw [hp, ok_bind] at hleft
  rw [hq, ok_bind] at hright
  obtain ⟨report, hreport⟩ := exists_ok_of_isOk hleft
  obtain ⟨report', hreport'⟩ := exists_ok_of_isOk hright
  obtain ⟨-, -, -, hgaps⟩ := analyses_converge ⟨1, 2⟩ ⟨3, 4⟩ taskFirst fileFirst p q (.inl hp) (.inl hq)
    swapped_interleaved swapped_writes swapped_withdrawals answers_list
  obtain rfl := hgaps _ _ _ hreport hreport'
  exact ⟨p, q, report, hp, hq, hne, hreport, hreport'⟩

end WeavatrixMemory.Analytics.Converging
