import WeavatrixMemory.Analytics.Model
import WeavatrixMemory.Analytics.Timeline
import WeavatrixMemory.GraphProjection

namespace WeavatrixMemory.Analytics.Consolidation

open Error Identity Domain Groups Sorting GraphProjection Analytics.Model Analytics.Timeline
open Projection.State Projection.Memory Projection.Invariant

/-- What the plan asks of a graph. -/
structure GraphQueries (crate : GraphCrate) where
  nodeIds : crate.Graph → List Text
  nodeIndex : crate.Graph → Text → Option Nat
  inDegree : crate.Graph → Nat → Option Nat
  outDegree : crate.Graph → Nat → Option Nat

structure LinkKey where
  source : EntityId
  relation : Text
  target : EntityId
deriving DecidableEq

def linkOf (fact : MemoryFact) : LinkKey := ⟨fact.source, fact.relation, fact.target⟩

instance : Ord LinkKey :=
  ⟨compareLex (compareLex (compareOn LinkKey.source) (compareOn LinkKey.relation)) (compareOn LinkKey.target)⟩

instance : Std.TransOrd LinkKey :=
  inferInstanceAs (Std.TransCmp (compareLex (compareLex (compareOn LinkKey.source) (compareOn LinkKey.relation))
    (compareOn LinkKey.target)))

instance : Std.LawfulEqOrd LinkKey where
  eq_of_compare {a b} h := by
    obtain ⟨h, htarget⟩ := Ordering.then_eq_eq.mp h
    obtain ⟨hsource, hrelation⟩ := Ordering.then_eq_eq.mp h
    cases a
    cases b
    rw [LinkKey.mk.injEq]
    exact ⟨Std.LawfulEqOrd.eq_of_compare hsource, Std.LawfulEqOrd.eq_of_compare hrelation,
      Std.LawfulEqOrd.eq_of_compare htarget⟩

/-- The strongest evidence first, of equally strong evidence the newest. -/
def strengthOrder (left right : MemoryFact) : Ordering :=
  ((compare right.confidence.basisPoints left.confidence.basisPoints).then
    (compare right.recordedAt left.recordedAt)).then (compare left.id right.id)

def duplicateAction (key : LinkKey) (duplicates : List MemoryFact) : ConsolidationAction :=
  let duplicates := duplicates.mergeSort fun left right => (strengthOrder left right).isLE
  { kind := .supersedeDuplicate
    keep := duplicates.head?.map (·.id)
    affectedFacts := duplicates.map (·.id)
    affectedEntities := [key.source, key.target]
    rationale := "same active source, relation, and target; keep strongest evidence" }

def duplicateActions (facts : List MemoryFact) : List ConsolidationAction :=
  (groups linkOf facts).toList.filterMap fun group =>
    if group.2.length < 2 then none else some (duplicateAction group.1 group.2)

variable {crate : GraphCrate} (queries : GraphQueries crate)

def orphanAction (id : Text) : ConsolidationAction where
  kind := .reviewOrphan
  keep := none
  affectedFacts := []
  affectedEntities := (TextId.new id : Result EntityId).toOption.toList
  rationale := "entity has no active incoming or outgoing evidence"

def orphanActions (graph : crate.Graph) : List ConsolidationAction :=
  (queries.nodeIds graph).filterMap fun id =>
    (queries.nodeIndex graph id).bind fun index =>
      if queries.inDegree graph index = some 0 ∧ queries.outDegree graph index = some 0 then some (orphanAction id)
      else none

def revisionAction (key : ChainKey) (facts : List MemoryFact) : ConsolidationAction :=
  let facts := timeline facts
  { kind := .compactRevisionChain
    keep := facts.getLast?.map (·.id)
    affectedFacts := facts.map (·.id)
    affectedEntities := [key.source]
    rationale := "retain event history but checkpoint a long revision chain" }

def revisionActions (p : MemoryProjection) (clock : ProjectionClock) : List ConsolidationAction :=
  (groups chainOf (knownFacts p clock.knownAt)).toList.filterMap fun group =>
    if 3 ≤ superseding (timeline group.2) then some (revisionAction group.1 group.2) else none

def ConsolidationKind.rank : ConsolidationKind → Nat
  | .supersedeDuplicate => 0
  | .reviewOrphan => 1
  | .compactRevisionChain => 2

def actionOrder (left right : ConsolidationAction) : Ordering :=
  ((compare (ConsolidationKind.rank left.kind) (ConsolidationKind.rank right.kind)).then
    (compare left.affectedEntities right.affectedEntities)).then (compare left.affectedFacts right.affectedFacts)

def savings (action : ConsolidationAction) : Nat :=
  match action.kind with
  | .reviewOrphan => 0
  | _ => action.affectedFacts.length - 1

/-- All actions, before the plan is sorted and cut. -/
def actionsOf (p : MemoryProjection) (clock : ProjectionClock) (graph : crate.Graph) : List ConsolidationAction :=
  duplicateActions (view p clock).facts ++ orphanActions queries graph ++ revisionActions p clock

def consolidationPlan (p : MemoryProjection) (clock : ProjectionClock) (maxActions : Nat) :
    Result ConsolidationPlan := do
  throwIf (maxActions = 0) (.invalidValue "consolidation.max_actions" "must be greater than zero")
  let graph ← projectGraph crate (view p clock)
  let actions := (actionsOf queries p clock graph).mergeSort fun left right => (actionOrder left right).isLE
  let actions := actions.take maxActions
  .ok { actions, projectedSavings := (actions.map savings).sum, sourcePosition := p.lastGlobalPosition }

def duplicates (p : MemoryProjection) (clock : ProjectionClock) (key : LinkKey) : List MemoryFact :=
  (view p clock).facts.filter fun fact => linkOf fact = key

def Long (p : MemoryProjection) (clock : ProjectionClock) (key : ChainKey) : Prop :=
  3 ≤ superseding (chain p clock.knownAt key)

def checkpoint (p : MemoryProjection) (clock : ProjectionClock) (key : ChainKey) : ConsolidationAction :=
  revisionAction key (chain p clock.knownAt key)

/-- The number of actions in front of a checkpoint: those about duplicates and orphans, and the checkpoints
of smaller sources or facts. -/
def position (p : MemoryProjection) (clock : ProjectionClock) (graph : crate.Graph) (key : ChainKey) : Nat :=
  (duplicateActions (view p clock).facts).length + (orphanActions queries graph).length +
    ((revisionActions p clock).filter fun action => actionOrder action (checkpoint p clock key) = .lt).length

instance transActionOrder : Std.TransCmp actionOrder :=
  inferInstanceAs (Std.TransCmp (compareLex (compareLex (compareOn fun action => ConsolidationKind.rank action.kind)
    (compareOn ConsolidationAction.affectedEntities)) (compareOn ConsolidationAction.affectedFacts)))

variable {queries} {p : MemoryProjection} {clock : ProjectionClock} {graph : crate.Graph} {key : ChainKey}
  {action : ConsolidationAction} {facts : List MemoryFact} {fact : MemoryFact} {id : FactId}

theorem mem_duplicateActions : action ∈ duplicateActions (view p clock).facts ↔
    ∃ key, 2 ≤ (duplicates p clock key).length ∧ action = duplicateAction key (duplicates p clock key) := by
  simp only [duplicateActions, List.mem_filterMap, Prod.exists, mem_groups, Option.ite_none_left_eq_some,
    Option.some.injEq, not_lt]
  constructor
  · rintro ⟨key, group, ⟨-, rfl⟩, hlength, rfl⟩
    exact ⟨key, hlength, rfl⟩
  · rintro ⟨key, hlength, rfl⟩
    refine ⟨key, _, ⟨?_, rfl⟩, hlength, rfl⟩
    rintro hnil
    rw [duplicates, hnil] at hlength
    cases hlength

theorem superseding_timeline (facts : List MemoryFact) : superseding (timeline facts) = superseding facts :=
  ((timeline_perm facts).filter _).length_eq

theorem Long.chain_ne_nil (h : Long p clock key) : chain p clock.knownAt key ≠ [] := by
  intro hnil
  rw [Long, hnil] at h
  cases h

theorem mem_revisionActions : action ∈ revisionActions p clock ↔
    ∃ key, Long p clock key ∧ action = checkpoint p clock key := by
  simp only [revisionActions, List.mem_filterMap, Prod.exists, mem_groups, Option.ite_none_right_eq_some,
    Option.some.injEq, superseding_timeline]
  constructor
  · rintro ⟨key, group, ⟨-, rfl⟩, hlong, rfl⟩
    exact ⟨key, hlong, rfl⟩
  · rintro ⟨key, hlong, rfl⟩
    exact ⟨key, _, ⟨hlong.chain_ne_nil, rfl⟩, hlong, rfl⟩

theorem orphan_of_mem (h : action ∈ orphanActions queries graph) : ∃ id, action = orphanAction id := by
  simp only [orphanActions, List.mem_filterMap, Option.bind_eq_some_iff, Option.ite_none_right_eq_some,
    Option.some.injEq] at h
  obtain ⟨id, -, -, -, -, rfl⟩ := h
  exact ⟨id, rfl⟩

theorem mem_duplicateAction {key : LinkKey} :
    id ∈ (duplicateAction key facts).affectedFacts ↔ ∃ fact ∈ facts, fact.id = id := by
  simp [duplicateAction]

theorem mem_revisionAction : id ∈ (revisionAction key facts).affectedFacts ↔ ∃ fact ∈ facts, fact.id = id := by
  simp [revisionAction, mem_timeline]

theorem actionOrder_of_rank {other : ConsolidationAction}
    (h : ConsolidationKind.rank action.kind < ConsolidationKind.rank other.kind) : actionOrder action other = .lt := by
  have hlt : compare (ConsolidationKind.rank action.kind) (ConsolidationKind.rank other.kind) = .lt :=
    Nat.compare_eq_lt.mpr h
  rw [actionOrder, hlt]
  rfl

theorem rank_duplicate_lt :
    ConsolidationKind.rank .supersedeDuplicate < ConsolidationKind.rank .compactRevisionChain := by decide

theorem kind_of_mem (h : action ∈ actionsOf queries p clock graph) (hkind : action.kind = .compactRevisionChain) :
    action ∈ revisionActions p clock := by
  obtain h | h := List.mem_append.mp h
  · obtain h | h := List.mem_append.mp h
    · obtain ⟨key, -, rfl⟩ := mem_duplicateActions.mp h
      cases hkind
    · obtain ⟨id, rfl⟩ := orphan_of_mem h
      cases hkind
  · exact h

theorem eq_of_actionOrder {left right : ConsolidationAction} (h : actionOrder left right = .eq) :
    left.kind = right.kind ∧ left.affectedFacts = right.affectedFacts := by
  obtain ⟨h, hfacts⟩ := Ordering.then_eq_eq.mp h
  obtain ⟨hkind, -⟩ := Ordering.then_eq_eq.mp h
  have hrank : Function.Injective ConsolidationKind.rank := by
    intro a b hab
    cases a <;> cases b <;> first | rfl | cases hab
  exact ⟨hrank (Nat.compare_eq_eq.mp hkind), Std.LawfulEqOrd.eq_of_compare hfacts⟩

theorem chain_key_eq (hp : Valid p) {other : ChainKey} (h : id ∈ (checkpoint p clock key).affectedFacts)
    (ho : id ∈ (checkpoint p clock other).affectedFacts) : key = other := by
  obtain ⟨fact, hfact, rfl⟩ := mem_revisionAction.mp h
  obtain ⟨fact', hfact', hid⟩ := mem_revisionAction.mp ho
  obtain ⟨hmem, -, rfl⟩ := mem_chain.mp hfact
  obtain ⟨hmem', -, rfl⟩ := mem_chain.mp hfact'
  rw [hp.indexed.fact_unique hmem' hmem hid]

theorem eq_checkpoint (hp : Valid p) (hlong : Long p clock key) (h : action ∈ actionsOf queries p clock graph)
    (horder : actionOrder action (checkpoint p clock key) = .eq) : action = checkpoint p clock key := by
  obtain ⟨hkind, hfacts⟩ := eq_of_actionOrder horder
  obtain ⟨other, -, rfl⟩ := mem_revisionActions.mp (kind_of_mem h hkind)
  obtain ⟨fact, hfact⟩ := List.exists_mem_of_ne_nil _ hlong.chain_ne_nil
  have hid : fact.id ∈ (checkpoint p clock key).affectedFacts := mem_revisionAction.mpr ⟨fact, hfact, rfl⟩
  have hother : fact.id ∈ (checkpoint p clock other).affectedFacts := by rwa [hfacts]
  rw [chain_key_eq hp hother hid]

theorem count_before : ((actionsOf queries p clock graph).filter fun action =>
    actionOrder action (checkpoint p clock key) = .lt).length = position queries p clock graph key := by
  have hrank : ConsolidationKind.rank .reviewOrphan < ConsolidationKind.rank .compactRevisionChain := by decide
  have hduplicates : (duplicateActions (view p clock).facts).filter
      (fun action => actionOrder action (checkpoint p clock key) = .lt) = duplicateActions (view p clock).facts := by
    rw [List.filter_eq_self]
    intro action haction
    obtain ⟨link, -, rfl⟩ := mem_duplicateActions.mp haction
    exact decide_eq_true (actionOrder_of_rank rank_duplicate_lt)
  have horphans : (orphanActions queries graph).filter
      (fun action => actionOrder action (checkpoint p clock key) = .lt) = orphanActions queries graph := by
    rw [List.filter_eq_self]
    intro action haction
    obtain ⟨id, rfl⟩ := orphan_of_mem haction
    exact decide_eq_true (actionOrder_of_rank hrank)
  rw [actionsOf, List.filter_append, List.filter_append, hduplicates, horphans, List.length_append, List.length_append,
    position]

theorem consolidationPlan_eq_ok {maxActions : Nat} {plan : ConsolidationPlan}
    (h : consolidationPlan queries p clock maxActions = .ok plan)
    (hgraph : projectGraph crate (view p clock) = .ok graph) :
    plan.actions = ((actionsOf queries p clock graph).mergeSort fun left right =>
        (actionOrder left right).isLE).take maxActions ∧
      plan.projectedSavings = (plan.actions.map savings).sum := by
  obtain ⟨⟨⟩, -, h⟩ := bind_eq_ok.mp h
  rw [hgraph, ok_bind] at h
  obtain rfl := Except.ok.inj h
  exact ⟨rfl, rfl⟩

theorem mem_of_mem_plan {maxActions : Nat} {plan : ConsolidationPlan}
    (h : consolidationPlan queries p clock maxActions = .ok plan)
    (hgraph : projectGraph crate (view p clock) = .ok graph)
    (haction : action ∈ plan.actions) : action ∈ actionsOf queries p clock graph := by
  rw [(consolidationPlan_eq_ok h hgraph).1] at haction
  exact List.mem_mergeSort.mp (List.mem_of_mem_take haction)

/-- A checkpoint is in the plan if there is room for it behind the actions in front of it. -/
theorem checkpoint_mem_iff (hp : Valid p) {maxActions : Nat} {plan : ConsolidationPlan}
    (h : consolidationPlan queries p clock maxActions = .ok plan)
    (hgraph : projectGraph crate (view p clock) = .ok graph)
    (hlong : Long p clock key) :
    checkpoint p clock key ∈ plan.actions ↔ position queries p clock graph key < maxActions := by
  have hmem : checkpoint p clock key ∈ actionsOf queries p clock graph :=
    List.mem_append_right _ (mem_revisionActions.mpr ⟨key, hlong, rfl⟩)
  rw [(consolidationPlan_eq_ok h hgraph).1, mem_take_sort hmem fun other ho => eq_checkpoint hp hlong ho,
    count_before]

theorem checkpoint_of_mem_plan {maxActions : Nat} {plan : ConsolidationPlan}
    (h : consolidationPlan queries p clock maxActions = .ok plan)
    (hgraph : projectGraph crate (view p clock) = .ok graph)
    (haction : action ∈ plan.actions) (hkind : action.kind = .compactRevisionChain) :
    ∃ key, Long p clock key ∧ action = checkpoint p clock key :=
  mem_revisionActions.mp (kind_of_mem (mem_of_mem_plan h hgraph haction) hkind)

theorem exists_plan {maxActions : Nat} (hgraph : projectGraph crate (view p clock) = .ok graph)
    (hmax : maxActions ≠ 0) :
    ∃ plan, consolidationPlan queries p clock maxActions = .ok plan := by
  rw [consolidationPlan, throwIf_of_not hmax, ok_bind, hgraph, ok_bind]
  exact ⟨_, rfl⟩

def listQueries : GraphQueries listCrate where
  nodeIds graph := graph.1
  nodeIndex graph id := graph.1.idxOf? id
  inDegree graph index := graph.1[index]?.map fun id => (graph.2.filter (·.2 = id)).length
  outDegree graph index := graph.1[index]?.map fun id => (graph.2.filter (·.1 = id)).length

end WeavatrixMemory.Analytics.Consolidation
