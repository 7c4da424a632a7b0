import WeavatrixMemory.Analytics.Gaps
import WeavatrixMemory.Analytics.Presented

namespace WeavatrixMemory.Analytics.Belief

open Error Identity Domain GraphProjection Sorting Pairings Breadth Analytics.Model Cascade Presented Timeline
open Gaps (eqIgnoreAsciiCase)
open Projection.State Projection.Memory Projection.Invariant Projection.Views

def contradiction (fact hypothesis : MemoryFact) : Option Contradiction :=
  let competing : Bool := fact.source = hypothesis.source ∧ fact.relation = hypothesis.relation ∧
    fact.target ≠ hypothesis.target
  let explicit : Bool := eqIgnoreAsciiCase fact.relation.str "contradicts" ∧
    (fact.source = hypothesis.source ∧ fact.target = hypothesis.target ∨
      fact.source = hypothesis.target ∧ fact.target = hypothesis.source)
  let corrected : Bool := hypothesis.supersedes = some fact.id
  if !(competing || explicit || corrected) then none
  else
    let reason :=
      if explicit then "explicit contradicts relation"
      else if corrected then "hypothesis explicitly supersedes this fact"
      else "same source and relation assert a different target"
    some
      { fact := fact.id
        strengthBps := min fact.confidence.basisPoints hypothesis.confidence.basisPoints
        reason := reason }

def contradictions (facts : List MemoryFact) (hypothesis : MemoryFact) : List Contradiction :=
  (facts.filterMap fun fact => contradiction fact hypothesis).mergeSort fun left right =>
    (compare left.fact right.fact).isLE

def roots (facts : List MemoryFact) (contradictions : List Contradiction) : BTreeSet EntityId :=
  Std.ExtTreeSet.ofList
    (contradictions.filterMap fun item => (facts.find? fun fact => fact.id = item.fact).map (·.target)) compare

def kinds (nodes : List MemoryNode) : BTreeMap EntityId Text :=
  Std.ExtTreeMap.ofList (nodes.map fun node => (node.id, node.kind)) compare

def isDecision (kind : Text) : Bool := eqIgnoreAsciiCase kind.str "decision"

variable {crate : GraphCrate}

def beliefRevision (adjacency : Adjacency crate) (p : MemoryProjection) (request : BeliefRevisionRequest) :
    Result BeliefRevisionReport := do
  request.hypothesis.validate
  let shown := view p request.clock
  let graph ← projectGraph crate shown
  let contradictions := contradictions shown.facts request.hypothesis
  let roots := roots shown.facts contradictions
  let effects ← cascade adjacency graph roots request.maxDepth request.hypothesis.confidence.basisPoints
    (shown.nodes.length + roots.size + 1)
  let kinds := kinds shown.nodes
  .ok
    { contradictions := contradictions
      cascade := effects
      invalidatedDecisions := (effects.filter fun effect => kinds[effect.entity]?.any isDecision).map (·.entity) }

/-- The fact asserts another target. -/
structure Competes (fact hypothesis : MemoryFact) : Prop where
  source : fact.source = hypothesis.source
  relation : fact.relation = hypothesis.relation
  target : fact.target ≠ hypothesis.target

/-- The fact says that its ends contradict each other, and the hypothesis is about them. -/
structure Disputes (fact hypothesis : MemoryFact) : Prop where
  relation : eqIgnoreAsciiCase fact.relation.str "contradicts" = true
  ends : fact.source = hypothesis.source ∧ fact.target = hypothesis.target ∨
    fact.source = hypothesis.target ∧ fact.target = hypothesis.source

def Opposed (fact hypothesis : MemoryFact) : Prop :=
  Competes fact hypothesis ∨ Disputes fact hypothesis ∨ hypothesis.supersedes = some fact.id

def Root (facts : List MemoryFact) (hypothesis : MemoryFact) (id : EntityId) : Prop :=
  ∃ fact ∈ facts, Opposed fact hypothesis ∧ fact.target = id

/-- The report says what the hypothesis leads to in the view. -/
structure Accurate (shown : MemoryView) (request : BeliefRevisionRequest) (report : BeliefRevisionReport) : Prop where
  contradictions : ∀ id, (∃ item ∈ report.contradictions, item.fact = id) ↔
    ∃ fact ∈ shown.facts, Opposed fact request.hypothesis ∧ fact.id = id
  sorted : report.contradictions.Pairwise fun left right => compare left.fact right.fact = .lt
  cascade : ∀ id n, (∃ effect ∈ report.cascade, effect.entity = id ∧ effect.depth = n) ↔
    Distance (Adjacent shown.facts) (Root shown.facts request.hypothesis) n id ∧ n ≤ request.maxDepth
  once : (report.cascade.map CascadeEffect.entity).Nodup
  rising : ∀ effect ∈ report.cascade, ∀ deeper ∈ report.cascade, effect.depth ≤ deeper.depth →
    effect.revisedConfidenceBps ≤ deeper.revisedConfidenceBps
  decisions : ∀ id, id ∈ report.invalidatedDecisions ↔ (∃ effect ∈ report.cascade, effect.entity = id) ∧
    ∃ node ∈ shown.nodes, node.id = id ∧ isDecision node.kind = true
  decisionsOnce : report.invalidatedDecisions.Nodup

structure Exact (shown : MemoryView) (request : BeliefRevisionRequest) (report : BeliefRevisionReport) : Prop
    extends Accurate shown request report where
  bounded : ∀ effect ∈ report.cascade, 5000 ≤ effect.revisedConfidenceBps ∧ effect.revisedConfidenceBps ≤ 10000

variable {facts : List MemoryFact} {fact hypothesis : MemoryFact} {nodes : List MemoryNode}

theorem contradiction_fact {item : Contradiction} (h : contradiction fact hypothesis = some item) :
    item.fact = fact.id := by
  obtain ⟨-, h⟩ := Option.ite_none_left_eq_some.mp h
  rw [← Option.some.inj h]

theorem competes_iff : Competes fact hypothesis ↔ fact.source = hypothesis.source ∧
    fact.relation = hypothesis.relation ∧ fact.target ≠ hypothesis.target :=
  ⟨fun h => ⟨h.source, h.relation, h.target⟩, fun ⟨hsource, hrelation, htarget⟩ => ⟨hsource, hrelation, htarget⟩⟩

theorem disputes_iff : Disputes fact hypothesis ↔ eqIgnoreAsciiCase fact.relation.str "contradicts" = true ∧
    (fact.source = hypothesis.source ∧ fact.target = hypothesis.target ∨
      fact.source = hypothesis.target ∧ fact.target = hypothesis.source) :=
  ⟨fun h => ⟨h.relation, h.ends⟩, fun ⟨hrelation, hends⟩ => ⟨hrelation, hends⟩⟩

theorem isSome_contradiction : (contradiction fact hypothesis).isSome = true ↔ Opposed fact hypothesis := by
  rw [Opposed, competes_iff, disputes_iff, contradiction]
  simp only [Option.isSome_ite', Bool.not_eq_true', Bool.not_eq_false, Bool.or_eq_true, decide_eq_true_iff, or_assoc]

theorem contradiction_iff (hypothesis : MemoryFact) (id : FactId) :
    (∃ item ∈ contradictions facts hypothesis, item.fact = id) ↔
      ∃ fact ∈ facts, Opposed fact hypothesis ∧ fact.id = id := by
  simp only [contradictions, List.mem_mergeSort, List.mem_filterMap]
  constructor
  · rintro ⟨item, ⟨fact, hf, hitem⟩, rfl⟩
    exact ⟨fact, hf, isSome_contradiction.mp (hitem ▸ rfl), (contradiction_fact hitem).symm⟩
  · rintro ⟨fact, hf, hopposed, rfl⟩
    obtain ⟨item, hitem⟩ := Option.isSome_iff_exists.mp (isSome_contradiction.mpr hopposed)
    exact ⟨item, ⟨fact, hf, hitem⟩, contradiction_fact hitem⟩

theorem sorted_contradictions (h : Distinct facts) (hypothesis : MemoryFact) :
    (contradictions facts hypothesis).Pairwise fun left right => compare left.fact right.fact = .lt := by
  have hnodup : ((contradictions facts hypothesis).map Contradiction.fact).Nodup := by
    have hperm := List.mergeSort_perm (facts.filterMap fun fact => contradiction fact hypothesis) fun left right =>
      (compare left.fact right.fact).isLE
    apply (hperm.map Contradiction.fact).nodup_iff.mpr
    exact (filterMap_sublist fun fact _ item hitem => contradiction_fact hitem).nodup h
  have hsorted :=
    pairwise_sort (compareOn Contradiction.fact) (facts.filterMap fun fact => contradiction fact hypothesis)
  refine List.Pairwise.imp₂ (fun left right hle hne => ?_) hsorted (List.pairwise_map.mp hnodup)
  change compareOn Contradiction.fact left right = .lt
  cases hcompare : compareOn Contradiction.fact left right with
  | lt => rfl
  | eq => exact absurd (Std.LawfulEqOrd.eq_of_compare hcompare) hne
  | gt =>
      rw [hcompare] at hle
      cases hle

theorem mem_roots (h : Distinct facts) {id : EntityId} :
    id ∈ roots facts (contradictions facts hypothesis) ↔ Root facts hypothesis id := by
  have hfind (fact : MemoryFact) (hf : fact ∈ facts) : (facts.find? fun other => other.id = fact.id) = some fact := by
    cases hfound : facts.find? fun other => other.id = fact.id with
    | none => exact absurd (decide_eq_true rfl) (List.find?_eq_none.mp hfound fact hf)
    | some other =>
        have hid : decide (other.id = fact.id) = true := by simpa using List.find?_some hfound
        rw [h.eq (List.mem_of_find?_eq_some hfound) hf (of_decide_eq_true hid)]
  rw [roots, Std.ExtTreeSet.mem_ofList, List.contains_iff_mem, List.mem_filterMap]
  constructor
  · rintro ⟨item, hitem, htarget⟩
    obtain ⟨fact, hf, hopposed, hid⟩ := (contradiction_iff hypothesis item.fact).mp ⟨item, hitem, rfl⟩
    rw [← hid, hfind fact hf] at htarget
    exact ⟨fact, hf, hopposed, Option.some.inj htarget⟩
  · rintro ⟨fact, hf, hopposed, rfl⟩
    obtain ⟨item, hitem, hid⟩ := (contradiction_iff hypothesis fact.id).mpr ⟨fact, hf, hopposed, rfl⟩
    refine ⟨item, hitem, ?_⟩
    rw [hid, hfind fact hf]
    rfl

theorem getElem?_kinds (h : (nodes.map MemoryNode.id).Nodup) {id : EntityId} {kind : Text} :
    (kinds nodes)[id]? = some kind ↔ ∃ node ∈ nodes, node.id = id ∧ node.kind = kind := by
  have hdistinct : (nodes.map fun node => (node.id, node.kind)).Pairwise fun a b => ¬ compare a.1 b.1 = .eq := by
    rw [List.pairwise_map]
    exact (List.pairwise_map.mp h).imp fun hne heq => hne (Std.LawfulEqOrd.eq_of_compare heq)
  have hfound (node : MemoryNode) (hnode : node ∈ nodes) : (kinds nodes)[node.id]? = some node.kind :=
    Std.ExtTreeMap.getElem?_ofList_of_mem Std.ReflCmp.compare_self hdistinct
      (List.mem_map_of_mem (f := fun node => (node.id, node.kind)) hnode)
  constructor
  · intro hkind
    by_cases hid : id ∈ nodes.map MemoryNode.id
    · obtain ⟨node, hnode, rfl⟩ := List.mem_map.mp hid
      exact ⟨node, hnode, rfl, Option.some.inj ((hfound node hnode).symm.trans hkind)⟩
    · have hmissing : ((nodes.map fun node => (node.id, node.kind)).map Prod.fst).contains id = false := by
        rw [List.map_map, Bool.eq_false_iff, ne_eq, List.contains_iff_mem]
        exact hid
      rw [kinds, Std.ExtTreeMap.getElem?_ofList_of_contains_eq_false hmissing] at hkind
      cases hkind
  · rintro ⟨node, hnode, rfl, rfl⟩
    exact hfound node hnode

variable {adjacency : Adjacency crate} {ends : Ends crate} {p : MemoryProjection} {request : BeliefRevisionRequest}
  {graph : crate.Graph}

theorem view_distinct (hp : Valid p) (clock : ProjectionClock) :
    ((view p clock).nodes.map MemoryNode.id).Nodup ∧ Distinct (view p clock).facts ∧
      ∀ fact ∈ (view p clock).facts, fact.target ∈ (view p clock).nodes.map MemoryNode.id := by
  obtain ⟨hnodes, hfacts⟩ := @view_ids_nodup _ clock hp
  exact ⟨hnodes, hfacts, fun fact hf => (endpoints_in_view hp hf).2⟩

theorem decisions_iff (hnodes : (nodes.map MemoryNode.id).Nodup) (effects : List CascadeEffect) (id : EntityId) :
    id ∈ (effects.filter fun effect => (kinds nodes)[effect.entity]?.any isDecision).map CascadeEffect.entity ↔
      (∃ effect ∈ effects, effect.entity = id) ∧ ∃ node ∈ nodes, node.id = id ∧ isDecision node.kind = true := by
  have hkind (id : EntityId) : (kinds nodes)[id]?.any isDecision = true ↔
      ∃ node ∈ nodes, node.id = id ∧ isDecision node.kind = true := by
    simp only [Option.any_eq_true, getElem?_kinds hnodes]
    constructor
    · rintro ⟨kind, ⟨node, hnode, hid, rfl⟩, hdecision⟩
      exact ⟨node, hnode, hid, hdecision⟩
    · rintro ⟨node, hnode, hid, hdecision⟩
      exact ⟨node.kind, ⟨node, hnode, hid, rfl⟩, hdecision⟩
  simp only [List.mem_map, List.mem_filter, hkind]
  constructor
  · rintro ⟨effect, ⟨heffect, hdecision⟩, rfl⟩
    exact ⟨⟨effect, heffect, rfl⟩, hdecision⟩
  · rintro ⟨⟨effect, heffect, rfl⟩, hdecision⟩
    exact ⟨effect, ⟨heffect, hdecision⟩, rfl⟩

theorem exists_report (hlawful : Lawful adjacency ends) (hp : Valid p) (hvalid : request.hypothesis.validate = .ok ())
    (hgraph : projectGraph crate (view p request.clock) = .ok graph) :
    ∃ report, beliefRevision adjacency p request = .ok report ∧ Accurate (view p request.clock) request report ∧
      ∀ effect ∈ report.cascade, effect.revisedConfidenceBps =
        revisedConfidence request.hypothesis.confidence.basisPoints effect.depth := by
  obtain ⟨hnodes, hfacts, htargets⟩ := view_distinct hp request.clock
  have hpresents := presents_of_projectGraph hlawful hnodes htargets hgraph
  have hroot : ∀ id, id ∈ roots (view p request.clock).facts (contradictions (view p request.clock).facts
      request.hypothesis) ↔ Root (view p request.clock).facts request.hypothesis id := fun id => mem_roots hfacts
  obtain ⟨effects, heffects, honce, hmem⟩ := @Presents.cascade _ _ _ _ _ request.maxDepth hpresents
    (roots (view p request.clock).facts (contradictions (view p request.clock).facts request.hypothesis)) (by
      intro root hin
      obtain ⟨fact, hf, -, rfl⟩ := (hroot root).mp hin
      exact htargets fact hf) request.hypothesis.confidence.basisPoints
  simp only [hroot] at hmem
  have hrevised : ∀ effect ∈ effects, effect.revisedConfidenceBps =
      revisedConfidence request.hypothesis.confidence.basisPoints effect.depth := fun effect h => ((hmem effect).mp h).2
  rw [List.length_map] at heffects
  let report : BeliefRevisionReport := ⟨contradictions (view p request.clock).facts request.hypothesis, effects,
    (effects.filter fun effect => (kinds (view p request.clock).nodes)[effect.entity]?.any isDecision).map (·.entity)⟩
  refine ⟨report, ?_, ⟨contradiction_iff request.hypothesis, sorted_contradictions hfacts request.hypothesis,
    fun id n => ?_, honce, fun effect he deeper hd hle => ?_, decisions_iff hnodes effects, ?_⟩, hrevised⟩
  · rw [beliefRevision, hvalid, ok_bind]
    simp only [hgraph, heffects, ok_bind]
    rfl
  · constructor
    · rintro ⟨effect, heffect, rfl, rfl⟩
      exact ((hmem effect).mp heffect).1
    · intro hdistance
      exact ⟨⟨id, n, revisedConfidence request.hypothesis.confidence.basisPoints n⟩, (hmem _).mpr ⟨hdistance, rfl⟩,
        rfl, rfl⟩
  · rw [hrevised effect he, hrevised deeper hd]
    exact revisedConfidence_mono _ hle
  · exact honce.sublist (List.filter_sublist.map _)

theorem Accurate.exact_iff {shown : MemoryView} {report : BeliefRevisionReport} (h : Accurate shown request report)
    (hrevised : ∀ effect ∈ report.cascade, effect.revisedConfidenceBps =
      revisedConfidence request.hypothesis.confidence.basisPoints effect.depth) :
    Exact shown request report ↔ request.hypothesis.confidence.basisPoints ≤ 10001 ∨
      ∀ fact ∈ shown.facts, ¬ Opposed fact request.hypothesis := by
  refine ⟨fun hexact => or_iff_not_imp_right.mpr fun hnot => ?_, fun hcondition => ⟨h, fun effect heffect => ?_⟩⟩
  · obtain ⟨fact, hf, hopposed⟩ : ∃ fact ∈ shown.facts, Opposed fact request.hypothesis := by simpa using hnot
    have hroot : Distance (Adjacent shown.facts) (Root shown.facts request.hypothesis) 0 fact.target :=
      ⟨.source ⟨fact, hf, hopposed, rfl⟩, fun m hm => absurd hm (Nat.not_lt_zero m)⟩
    obtain ⟨effect, heffect, -, hdepth⟩ := (h.cascade fact.target 0).mpr ⟨hroot, Nat.zero_le _⟩
    have hbounded := (hexact.bounded effect heffect).1
    rw [hrevised effect heffect, hdepth] at hbounded
    exact revisedConfidence_ge.mp hbounded
  · rw [hrevised effect heffect]
    constructor
    · obtain hle | hnone := hcondition
      · exact UInt16.le_trans (revisedConfidence_ge.mpr hle) (revisedConfidence_mono _ (Nat.zero_le _))
      · obtain ⟨⟨hwalk, -⟩, -⟩ := (h.cascade effect.entity effect.depth).mp ⟨effect, heffect, rfl, rfl⟩
        obtain ⟨root, fact, hf, hopposed, -⟩ := hwalk.exists_source
        exact absurd hopposed (hnone fact hf)
    · rw [UInt16.le_iff_toNat_le, toNat_revisedConfidence]
      exact Nat.sub_le _ _

/-- The report is exact unless a confidence beyond the certain one weakens what it contradicts by more
than a half. -/
theorem beliefRevision_exact_iff (hlawful : Lawful adjacency ends) (hp : Valid p)
    (hvalid : request.hypothesis.validate = .ok ())
    (hgraph : projectGraph crate (view p request.clock) = .ok graph) :
    ∃ report, beliefRevision adjacency p request = .ok report ∧
      (Exact (view p request.clock) request report ↔ request.hypothesis.confidence.basisPoints ≤ 10001 ∨
        ∀ fact ∈ (view p request.clock).facts, ¬ Opposed fact request.hypothesis) := by
  obtain ⟨report, hreport, haccurate, hrevised⟩ := exists_report hlawful hp hvalid hgraph
  exact ⟨report, hreport, haccurate.exact_iff hrevised⟩

def listAdjacency : Adjacency listCrate where
  nodeIndex graph id := graph.1.idxOf? id
  outgoingNeighborsAt graph index :=
    (graph.2.filter fun edge => graph.1[index]? = some edge.1).filterMap fun edge => graph.1.idxOf? edge.2
  nodeAt graph index := graph.1[index]?
  idText id := id

def listEnds : Ends listCrate where
  source edge := edge.1
  target edge := edge.2

theorem idxOf?_eq_some {α : Type} [DecidableEq α] {xs : List α} (h : xs.Nodup) {a : α} {i : Nat} :
    xs.idxOf? a = some i ↔ xs[i]? = some a := by
  rw [List.idxOf?_eq_some_iff, List.getElem?_eq_some_iff]
  constructor
  · rintro ⟨hi, heq, -⟩
    exact ⟨hi, heq⟩
  · rintro ⟨hi, heq⟩
    refine ⟨hi, heq, fun j hj hsame => ?_⟩
    have hij := (h.getElem_inj_iff).mp (hsame.trans heq.symm)
    exact hj.ne hij

theorem finds_list {nodes : List Text} (h : nodes.Nodup) (edges : List (Text × Text)) :
    @Finds listCrate listAdjacency listEnds nodes edges (nodes, edges) := by
  refine ⟨fun made => List.mem_iff_getElem?.symm, fun text i => (idxOf?_eq_some h).trans ?_, fun i made hmade j => ?_⟩
  · exact ⟨fun htext => ⟨text, htext, rfl⟩, fun ⟨made, hmade, htext⟩ => htext ▸ hmade⟩
  · change j ∈ ((edges.filter fun edge => nodes[i]? = some edge.1).filterMap fun edge => nodes.idxOf? edge.2) ↔ _
    simp only [List.mem_filterMap, List.mem_filter, decide_eq_true_eq, idxOf?_eq_some h]
    constructor
    · rintro ⟨edge, ⟨hedge, hsource⟩, htarget⟩
      exact ⟨edge, hedge, Option.some.inj (hsource.symm.trans hmade), edge.2, htarget, rfl⟩
    · rintro ⟨edge, hedge, hsource, other, htarget, rfl⟩
      exact ⟨edge, ⟨hedge, hmade.trans (congrArg some hsource.symm)⟩, htarget⟩

theorem lawful_list : Lawful listAdjacency listEnds where
  id_new id label kind made hmade := by
    have hmade :
        (if h : id.utf8ByteSize < 2 ^ 63 then Except.ok (⟨id, h⟩ : Text) else .error "identifier is too long") =
        .ok made := hmade
    split at hmade
    next =>
      obtain rfl := Except.ok.inj hmade
      rfl
    next => cases hmade
  id_set _ _ _ := rfl
  ends_new _ _ _ _ := ⟨rfl, rfl⟩
  ends_set _ _ _ := ⟨rfl, rfl⟩
  finds nodes edges graph hgraph hnodup := by
    obtain rfl := Except.ok.inj hgraph
    exact finds_list hnodup.of_map edges

/-- The task affects itself, not the file. -/
def beliefRequest (confidence : UInt16) : BeliefRevisionRequest where
  hypothesis := { Common.fact Common.factTwo (Common.ts 10) (Common.ts 60) none with
    target := Common.task
    confidence := ⟨confidence⟩ }
  clock := ⟨Common.ts 60, Common.ts 60⟩
  maxDepth := 3

theorem beliefRevision_exact_certain : ∃ p report, replayed inTurn = .ok p ∧
    beliefRevision listAdjacency p (beliefRequest 10000) = .ok report ∧
    Exact (view p ⟨Common.ts 60, Common.ts 60⟩) (beliefRequest 10000) report := by
  obtain ⟨p, graph, h⟩ := exists_inTurn
  obtain ⟨report, hreport, hexact⟩ := @beliefRevision_exact_iff _ _ _ p (beliefRequest 10000) graph lawful_list h.valid
    (by decide +kernel) h.projected
  exact ⟨p, report, h.replayed, hreport, hexact.mpr (.inl (by decide))⟩

/-- A hypothesis with twice the confidence of a certain one takes all confidence from what it contradicts. -/
theorem beliefRevision_overconfident : ∃ p report, replayed inTurn = .ok p ∧
    beliefRevision listAdjacency p (beliefRequest 20000) = .ok report ∧
    ¬ Exact (view p ⟨Common.ts 60, Common.ts 60⟩) (beliefRequest 20000) report := by
  obtain ⟨p, graph, h⟩ := exists_inTurn
  obtain ⟨report, hreport, haccurate, hrevised⟩ :=
    @exists_report _ _ _ p (beliefRequest 20000) graph lawful_list h.valid
    (by decide +kernel) h.projected
  have hfacts := @Example.view_facts _ _ _ [Common.fact factFour (Common.ts 10) (Common.ts 50) (some factThree)] h
    (by decide +kernel)
  refine ⟨p, report, h.replayed, hreport, fun hexact => ?_⟩
  obtain hle | hnone := (haccurate.exact_iff hrevised).mp hexact
  · exact absurd hle (by decide)
  · refine hnone (Common.fact factFour (Common.ts 10) (Common.ts 50) (some factThree)) ?_ (.inl ⟨rfl, rfl, by decide⟩)
    exact hfacts ▸ List.mem_singleton_self _

end WeavatrixMemory.Analytics.Belief
