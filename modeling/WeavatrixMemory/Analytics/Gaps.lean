import WeavatrixMemory.Analytics.Model
import WeavatrixMemory.Analytics.Timeline
import WeavatrixMemory.GraphProjection
import WeavatrixMemory.Library.Breadth

namespace WeavatrixMemory.Analytics.Gaps

open Error Identity Domain Groups Sorting GraphProjection Analytics.Model Analytics.Timeline
open Projection.State Projection.Memory Projection.Replay

/-- What the report asks of a graph. -/
structure Traversal (crate : GraphCrate) where
  nodeIndex : crate.Graph → Text → Option Nat
  bfs : crate.Graph → Nat → List Nat

def toAsciiLowercase (s : String) : String := String.ofList (s.toList.map Char.toLower)

def eqIgnoreAsciiCase (s other : String) : Bool := toAsciiLowercase s = toAsciiLowercase other

def validateRequest (request : ReasoningGapRequest) : Result Unit :=
  throwIf (request.minimumSupports = 0 ∨ 10000 < request.lowConfidenceBps ∨ request.unstableRevisionCount < 2 ∨
      request.staleAfterMicros < 0 ∨ request.maxResults = 0)
    (.invalidValue "reasoning_gap" "thresholds and limits must be in their documented ranges")

def isSupport (fact : MemoryFact) : Bool :=
  toAsciiLowercase fact.relation.str ∈ ["supports", "supported_by", "caused_by"]

def supportCounts (facts : List MemoryFact) : Std.ExtTreeMap EntityId Nat :=
  tally MemoryFact.target (facts.filter isSupport)

def supportSeverity (actual required : Nat) : UInt16 :=
  u16Or 10000 (min (usizeSaturatingMul (required - actual) 10000 / required) 10000)

def staleSeverity (age threshold : Int) : UInt16 :=
  if threshold = 0 then 10000
  else u16Or 10000 (max 1000 (min (i64Saturating ((i64Saturating (age * 5000)).tdiv threshold)) 10000)).toNat

def revisionSeverity (count : Nat) : UInt16 := u16Or 10000 (min (usizeSaturatingMul count 2000) 10000)

def health (gaps entities : Nat) : UInt16 :=
  if entities = 0 then 10000 else u16Or 0 (10000 - min (usizeSaturatingMul gaps 10000 / entities) 10000)

variable {crate : GraphCrate} (traversal : Traversal crate)

def downstream (graph : crate.Graph) (entity : EntityId) : Nat :=
  (traversal.nodeIndex graph entity.text).elim 0 fun index => (traversal.bfs graph index).length - 1

def gap (graph : crate.Graph) (entity : EntityId) (fact : Option FactId) (kind : GapKind) (severityBps : UInt16)
    (explanation : String) : ReasoningGap where
  entity := entity
  fact := fact
  kind := kind
  severityBps := severityBps
  downstreamEntities := downstream traversal graph entity
  explanation := explanation

def nodeGap (graph : crate.Graph) (supportCounts : Std.ExtTreeMap EntityId Nat) (request : ReasoningGapRequest)
    (node : MemoryNode) : Option ReasoningGap :=
  let supports := supportCounts.getD node.id 0
  if eqIgnoreAsciiCase node.kind.str "decision" ∧ supports = 0 then
    some (gap traversal graph node.id none .unjustifiedDecision 10000 "decision has no incoming support evidence")
  else if eqIgnoreAsciiCase node.kind.str "inference" ∧ supports < request.minimumSupports then
    some (gap traversal graph node.id none .singleSourceInference (supportSeverity supports request.minimumSupports)
      "inference has fewer independent supports than required")
  else none

/-- The body of the loop of `add_fact_gaps`. -/
def factGaps (graph : crate.Graph) (request : ReasoningGapRequest) (fact : MemoryFact) : List ReasoningGap :=
  let confidence := fact.confidence.basisPoints
  let age := i64Saturating (request.clock.knownAt.micros.toInt - fact.recordedAt.micros.toInt)
  (if confidence < request.lowConfidenceBps then
    [gap traversal graph fact.target (some fact.id) .lowConfidenceFoundation (10000 - confidence)
      "active fact confidence is below the requested floor"]
  else []) ++
  if request.staleAfterMicros.toInt ≤ age then
    [gap traversal graph fact.target (some fact.id) .staleEvidence (staleSeverity age request.staleAfterMicros.toInt)
      "active fact has not been refreshed within the requested interval"]
  else []

def unstableGaps (graph : crate.Graph) (p : MemoryProjection) (request : ReasoningGapRequest) : List ReasoningGap :=
  (groups chainOf (knownFacts p request.clock.knownAt)).toList.filterMap fun group =>
    let facts := timeline group.2
    if group.2.length < request.unstableRevisionCount then none
    else if superseding facts + 1 < request.unstableRevisionCount then none
    else
      some (gap traversal graph group.1.source (facts.getLast?.map (·.id)) .unstableKnowledge
        (revisionSeverity facts.length) "belief has a long explicit supersession history")

def gapsOf (p : MemoryProjection) (graph : crate.Graph) (request : ReasoningGapRequest) : List ReasoningGap :=
  (view p request.clock).nodes.filterMap
      (nodeGap traversal graph (supportCounts (view p request.clock).facts) request) ++
    (view p request.clock).facts.flatMap (factGaps traversal graph request) ++ unstableGaps traversal graph p request

def GapKind.rank : GapKind → Nat
  | .unjustifiedDecision => 0
  | .singleSourceInference => 1
  | .lowConfidenceFoundation => 2
  | .unstableKnowledge => 3
  | .staleEvidence => 4

def gapOrder (left right : ReasoningGap) : Ordering :=
  ((((compare right.severityBps left.severityBps).then
    (compare right.downstreamEntities left.downstreamEntities)).then
    (compare left.entity right.entity)).then
    (compare (GapKind.rank left.kind) (GapKind.rank right.kind))).then
    (compare left.fact right.fact)

def reasoningGaps (p : MemoryProjection) (request : ReasoningGapRequest) : Result GapReport := do
  validateRequest request
  let graph ← projectGraph crate (view p request.clock)
  let gaps := (gapsOf traversal p graph request).mergeSort fun left right => (gapOrder left right).isLE
  let total := gaps.length
  let analyzedEntities := (view p request.clock).nodes.length
  .ok
    { gaps := gaps.take request.maxResults
      healthBps := health total analyzedEntities
      analyzedEntities
      analyzedFacts := (view p request.clock).facts.length }

def isInference (node : MemoryNode) : Bool := eqIgnoreAsciiCase node.kind.str "inference"

def supporting (p : MemoryProjection) (clock : ProjectionClock) (id : EntityId) : List MemoryFact :=
  (view p clock).facts.filter fun fact => isSupport fact && fact.target = id

def OneSource (facts : List MemoryFact) : Prop := ∀ fact ∈ facts, ∀ other ∈ facts, fact.source = other.source

instance (facts : List MemoryFact) : Decidable (OneSource facts) :=
  inferInstanceAs (Decidable (∀ fact ∈ facts, ∀ other ∈ facts, _))

/-- The report says of the entity that it is an inference from a single source. -/
def Reported (report : GapReport) (id : EntityId) : Prop :=
  ∃ gap ∈ report.gaps, gap.kind = .singleSourceInference ∧ gap.entity = id

variable {traversal} {p : MemoryProjection} {request : ReasoningGapRequest} {graph : crate.Graph} {node : MemoryNode}
  {found : ReasoningGap} {report : GapReport}

theorem getD_supportCounts (id : EntityId) :
    (supportCounts (view p request.clock).facts).getD id 0 = (supporting p request.clock id).length := by
  rw [supportCounts, getD_tally, List.filter_filter, supporting]
  congr 1
  apply List.filter_congr
  intro fact _
  exact Bool.and_comm _ _

theorem not_decision (h : isInference node = true) : eqIgnoreAsciiCase node.kind.str "decision" = false := by
  rw [isInference, eqIgnoreAsciiCase, decide_eq_true_iff] at h
  rw [eqIgnoreAsciiCase, h]
  decide +kernel

theorem nodeGap_singleSource {counts : Std.ExtTreeMap EntityId Nat}
    (h : nodeGap traversal graph counts request node = some found) (hkind : found.kind = .singleSourceInference) :
    isInference node = true ∧ counts.getD node.id 0 < request.minimumSupports ∧ found.entity = node.id := by
  rw [nodeGap] at h
  split at h
  next =>
    obtain rfl := Option.some.inj h
    cases hkind
  next =>
    split at h
    next hfew =>
      obtain rfl := Option.some.inj h
      exact ⟨hfew.1, hfew.2, rfl⟩
    next => cases h

theorem exists_nodeGap {counts : Std.ExtTreeMap EntityId Nat} (hnode : isInference node = true)
    (hfew : counts.getD node.id 0 < request.minimumSupports) :
    ∃ found, nodeGap traversal graph counts request node = some found ∧
      found.kind = .singleSourceInference ∧ found.entity = node.id := by
  have hdecision : ¬ (eqIgnoreAsciiCase node.kind.str "decision" = true ∧ counts.getD node.id 0 = 0) := by
    rw [not_decision hnode]
    rintro ⟨⟨⟩, -⟩
  rw [nodeGap, if_neg hdecision, if_pos ⟨hnode, hfew⟩]
  exact ⟨_, rfl, rfl, rfl⟩

theorem kind_of_factGaps {fact : MemoryFact} (h : found ∈ factGaps traversal graph request fact) :
    found.kind ≠ .singleSourceInference := by
  obtain h | h := List.mem_append.mp h
  · split at h
    next =>
      rw [List.mem_singleton.mp h]
      exact fun hkind => by cases hkind
    next => exact absurd h List.not_mem_nil
  · split at h
    next =>
      rw [List.mem_singleton.mp h]
      exact fun hkind => by cases hkind
    next => exact absurd h List.not_mem_nil

theorem kind_of_unstableGaps (h : found ∈ unstableGaps traversal graph p request) :
    found.kind ≠ .singleSourceInference := by
  obtain ⟨group, -, h⟩ := List.mem_filterMap.mp h
  obtain ⟨-, h⟩ := Option.ite_none_left_eq_some.mp h
  obtain ⟨-, h⟩ := Option.ite_none_left_eq_some.mp h
  rw [← Option.some.inj h]
  exact fun hkind => by cases hkind

theorem singleSource_mem_gapsOf (id : EntityId) :
    (∃ found ∈ gapsOf traversal p graph request, found.kind = .singleSourceInference ∧ found.entity = id) ↔
      ∃ node ∈ (view p request.clock).nodes, isInference node = true ∧ node.id = id ∧
        (supporting p request.clock id).length < request.minimumSupports := by
  constructor
  · rintro ⟨found, hfound, hkind, rfl⟩
    rw [gapsOf, List.mem_append, List.mem_append] at hfound
    obtain (hfound | hfound) | hfound := hfound
    · obtain ⟨node, hnode, hgap⟩ := List.mem_filterMap.mp hfound
      obtain ⟨hinference, hfew, hentity⟩ := nodeGap_singleSource hgap hkind
      rw [getD_supportCounts] at hfew
      exact ⟨node, hnode, hinference, hentity.symm, hentity ▸ hfew⟩
    · obtain ⟨fact, -, hgap⟩ := List.mem_flatMap.mp hfound
      exact absurd hkind (kind_of_factGaps hgap)
    · exact absurd hkind (kind_of_unstableGaps hfound)
  · rintro ⟨node, hnode, hinference, rfl, hfew⟩
    rw [← getD_supportCounts] at hfew
    obtain ⟨found, hgap, hkind, hentity⟩ := @exists_nodeGap _ traversal _ graph _ _ hinference hfew
    refine ⟨found, ?_, hkind, hentity⟩
    exact List.mem_append_left _ (List.mem_append_left _ (List.mem_filterMap.mpr ⟨node, hnode, hgap⟩))

theorem mem_gaps (h : reasoningGaps traversal p request = .ok report)
    (hgraph : projectGraph crate (view p request.clock) = .ok graph)
    (hroom : (gapsOf traversal p graph request).length ≤ request.maxResults) :
    found ∈ report.gaps ↔ found ∈ gapsOf traversal p graph request := by
  obtain ⟨⟨⟩, -, h⟩ := bind_eq_ok.mp h
  rw [hgraph, ok_bind] at h
  obtain rfl := Except.ok.inj h
  have hlength : ((gapsOf traversal p graph request).mergeSort fun left right =>
      (gapOrder left right).isLE).length ≤ request.maxResults := by
    rwa [List.length_mergeSort]
  rw [List.take_of_length_le hlength, List.mem_mergeSort]

theorem reported_iff (h : reasoningGaps traversal p request = .ok report)
    (hgraph : projectGraph crate (view p request.clock) = .ok graph)
    (hroom : (gapsOf traversal p graph request).length ≤ request.maxResults)
    (hnode : node ∈ (view p request.clock).nodes) (hinference : isInference node = true) :
    Reported report node.id ↔ (supporting p request.clock node.id).length < request.minimumSupports := by
  have hgaps : Reported report node.id ↔ ∃ found ∈ gapsOf traversal p graph request,
      found.kind = .singleSourceInference ∧ found.entity = node.id := by
    simp only [Reported, mem_gaps h hgraph hroom]
  rw [hgaps, singleSource_mem_gapsOf]
  constructor
  · rintro ⟨other, -, -, -, hfew⟩
    exact hfew
  · intro hfew
    exact ⟨node, hnode, hinference, rfl, hfew⟩

/-- An inference from a single source is reported if the source gives too few facts. -/
theorem single_source_reported_iff (h : reasoningGaps traversal p request = .ok report)
    (hgraph : projectGraph crate (view p request.clock) = .ok graph)
    (hroom : (gapsOf traversal p graph request).length ≤ request.maxResults) :
    (∀ node ∈ (view p request.clock).nodes, isInference node = true →
        OneSource (supporting p request.clock node.id) → Reported report node.id) ↔
      ∀ node ∈ (view p request.clock).nodes, isInference node = true →
        OneSource (supporting p request.clock node.id) →
        (supporting p request.clock node.id).length < request.minimumSupports := by
  constructor
  · intro hreported node hnode hinference hsource
    exact (reported_iff h hgraph hroom hnode hinference).mp (hreported node hnode hinference hsource)
  · intro hfew node hnode hinference hsource
    exact (reported_iff h hgraph hroom hnode hinference).mpr (hfew node hnode hinference hsource)

/-- An inference about the file, which the task supports twice. -/
def inference : MemoryNode := { Common.node Common.file with kind := ⟨"inference", by decide⟩ }

def supportOf (id : FactId) : MemoryFact :=
  { Common.fact id (Common.ts 10) (Common.ts 20) none with relation := ⟨"supports", by decide⟩ }

def concluded : Result MemoryProjection :=
  replay (memory ⟨1, 2⟩)
    (logOf [Common.node Common.task, inference] [supportOf Common.factOne, supportOf Common.factTwo])

def gapRequest (minimumSupports : Nat) : ReasoningGapRequest where
  clock := ⟨Common.ts 60, Common.ts 60⟩
  minimumSupports := minimumSupports
  lowConfidenceBps := 5000
  unstableRevisionCount := 4
  staleAfterMicros := 5
  maxResults := 100

def leads (graph : listCrate.Graph) (i j : Nat) : Bool :=
  decide (j ∈ (graph.2.filter fun edge => graph.1[i]? = some edge.1).filterMap fun edge => graph.1.idxOf? edge.2)

def listTraversal : Traversal listCrate where
  nodeIndex graph id := graph.1.idxOf? id
  bfs graph i := (List.range graph.1.length).filter fun j =>
    decide (i = j) || Breadth.through (leads graph) (List.range graph.1.length) i j

structure Concluded (p : MemoryProjection) (graph : listCrate.Graph) : Prop where
  replayed : concluded = .ok p
  projected : projectGraph listCrate (view p ⟨Common.ts 60, Common.ts 60⟩) = .ok graph
  nodes : (view p ⟨Common.ts 60, Common.ts 60⟩).nodes = [Common.node Common.task, inference]
  facts : (view p ⟨Common.ts 60, Common.ts 60⟩).facts = [supportOf Common.factOne, supportOf Common.factTwo]
  room : (gapsOf listTraversal p graph (gapRequest 2)).length ≤ 100 ∧
    (gapsOf listTraversal p graph (gapRequest 3)).length ≤ 100

theorem exists_concluded : ∃ p graph, Concluded p graph := by
  obtain ⟨p, hp⟩ := @exists_ok_of_isOk _ concluded (by decide +kernel)
  have hgraph : (concluded >>= fun p => projectGraph listCrate (view p ⟨Common.ts 60, Common.ts 60⟩)).isOk = true := by
    decide +kernel
  have hroom : (concluded >>= fun p => (projectGraph listCrate (view p ⟨Common.ts 60, Common.ts 60⟩)).map fun graph =>
      decide ((gapsOf listTraversal p graph (gapRequest 2)).length ≤ 100 ∧
        (gapsOf listTraversal p graph (gapRequest 3)).length ≤ 100)) = .ok true := by
    decide +kernel
  have hnodes : (concluded.map fun p => (view p ⟨Common.ts 60, Common.ts 60⟩).nodes) =
      .ok [Common.node Common.task, inference] := by
    decide +kernel
  have hfacts : (concluded.map fun p => (view p ⟨Common.ts 60, Common.ts 60⟩).facts) =
      .ok [supportOf Common.factOne, supportOf Common.factTwo] := by
    decide +kernel
  rw [hp] at hgraph hroom hnodes hfacts
  rw [ok_bind] at hgraph hroom
  obtain ⟨graph, hgraph⟩ := exists_ok_of_isOk hgraph
  rw [hgraph] at hroom
  exact ⟨p, graph, hp, hgraph, Except.ok.inj hnodes, Except.ok.inj hfacts, of_decide_eq_true (Except.ok.inj hroom)⟩

theorem exists_reasoningGaps {p : MemoryProjection} {graph : listCrate.Graph} {minimumSupports : Nat}
    (h : projectGraph listCrate (view p ⟨Common.ts 60, Common.ts 60⟩) = .ok graph)
    (hvalid : validateRequest (gapRequest minimumSupports) = .ok ()) :
    ∃ report, reasoningGaps listTraversal p (gapRequest minimumSupports) = .ok report := by
  have hgraph : projectGraph listCrate (view p (gapRequest minimumSupports).clock) = .ok graph := h
  rw [reasoningGaps, hvalid, ok_bind, hgraph, ok_bind]
  exact ⟨_, rfl⟩

theorem single_source_reported_thrice : ∃ p graph report, Concluded p graph ∧
    reasoningGaps listTraversal p (gapRequest 3) = .ok report ∧
    ∀ node ∈ (view p (gapRequest 3).clock).nodes, isInference node = true →
      OneSource (supporting p (gapRequest 3).clock node.id) → Reported report node.id := by
  obtain ⟨p, graph, hconcluded⟩ := exists_concluded
  obtain ⟨report, hreport⟩ := @exists_reasoningGaps p graph 3 hconcluded.projected (by decide +kernel)
  refine ⟨p, graph, report, hconcluded, hreport,
    (single_source_reported_iff hreport hconcluded.projected hconcluded.room.2).mpr ?_⟩
  rintro node - - -
  have htwo : (view p (gapRequest 3).clock).facts.length = 2 := congrArg List.length hconcluded.facts
  have hle : (supporting p (gapRequest 3).clock node.id).length ≤ 2 := htwo ▸ List.length_filter_le _ _
  exact Nat.lt_succ_of_le hle

/-- Two facts from one source are enough. -/
theorem single_source_missed : ∃ p graph report, Concluded p graph ∧
    reasoningGaps listTraversal p (gapRequest 2) = .ok report ∧
    (gapsOf listTraversal p graph (gapRequest 2)).length ≤ (gapRequest 2).maxResults ∧
    ¬ ∀ node ∈ (view p (gapRequest 2).clock).nodes, isInference node = true →
      OneSource (supporting p (gapRequest 2).clock node.id) → Reported report node.id := by
  obtain ⟨p, graph, hconcluded⟩ := exists_concluded
  obtain ⟨report, hreport⟩ := @exists_reasoningGaps p graph 2 hconcluded.projected (by decide +kernel)
  have hroom := hconcluded.room.1
  refine ⟨p, graph, report, hconcluded, hreport, hroom, fun hreported => ?_⟩
  have hnode : inference ∈ (view p (gapRequest 2).clock).nodes :=
    hconcluded.nodes ▸ List.mem_cons_of_mem _ List.mem_cons_self
  have hinference : isInference inference = true := by decide +kernel
  have hfacts : (view p (gapRequest 2).clock).facts = [supportOf Common.factOne, supportOf Common.factTwo] :=
    hconcluded.facts
  have hsupporting : supporting p (gapRequest 2).clock inference.id =
      [supportOf Common.factOne, supportOf Common.factTwo] := by
    rw [supporting, hfacts]
    decide +kernel
  have hfew := (reported_iff hreport hconcluded.projected hroom hnode hinference).mp
    (hreported inference hnode hinference (by rw [hsupporting]; decide +kernel))
  rw [hsupporting] at hfew
  revert hfew
  decide

end WeavatrixMemory.Analytics.Gaps
