import WeavatrixMemory.Common
import WeavatrixMemory.Library.Outcome
import WeavatrixMemory.Projection.Replay

namespace WeavatrixMemory.Projection.Owned

open Error Identity Domain Index State Memory Admission Replay Outcome

structure Capacities where
  nodes : Nat
  facts : Nat
  nodeLookup : Nat
  factLookup : Nat
  incidentOffsets : Nat

/-- What is left to the allocator: the capacity after a reservation, from the capacity, the length and
the room asked for, and the capacities after an update. -/
structure Allocator where
  empty : Capacities
  reserve : Nat → Nat → Nat → Nat
  written : MemoryProjection → MemoryProjection → Capacities → Capacities

structure Sized where
  projection : MemoryProjection
  capacities : Capacities

def countPayloads : List (StoredEvent MemoryEvent) → Nat × Nat
  | [] => (0, 0)
  | event :: rest =>
      let (nodes, facts) := countPayloads rest
      match event.payload with
      | .nodeUpserted _ => (nodes + 1, facts)
      | .factRecorded _ => (nodes, facts + 1)
      | .factRetracted .. => (nodes, facts)

def reserved (allocator : Allocator) (events : List (StoredEvent MemoryEvent)) (s : Sized) : Sized :=
  let (nodes, facts) := countPayloads events
  { s with capacities :=
      { nodes := allocator.reserve s.capacities.nodes s.projection.nodes.length nodes
        facts := allocator.reserve s.capacities.facts s.projection.facts.length facts
        nodeLookup := allocator.reserve s.capacities.nodeLookup s.projection.nodes.length nodes
        factLookup := allocator.reserve s.capacities.factLookup s.projection.facts.length facts
        incidentOffsets :=
          allocator.reserve s.capacities.incidentOffsets s.projection.incidentOffsets.length nodes } }

def sizing (allocator : Allocator) (call : Update MemoryProjection Unit) : Update Sized Unit := fun s =>
  match call s.projection with
  | .ok u q => .ok u ⟨q, allocator.written s.projection q s.capacities⟩
  | .error e q => .error e ⟨q, allocator.written s.projection q s.capacities⟩

def sized (allocator : Allocator) (seeds : Seeds) : ProjectionTrait MemoryEvent Sized where
  default := ⟨.default seeds, allocator.empty⟩
  prepareReplay := reserved allocator
  apply event := sizing allocator (apply event)
  applyOwned event := sizing allocator (applyOwned event)

/-- The instance without reservations: the default `prepare_replay` does nothing. -/
def unreserved (seeds : Seeds) : ProjectionTrait MemoryEvent MemoryProjection :=
  { memory seeds with prepareReplay := fun _ p => p }

/-- Projections equal in every field. The two identifier indexes have random seeds, and are equal as
maps. -/
structure SameFields (p q : MemoryProjection) : Prop where
  nodes : p.nodes = q.nodes
  facts : p.facts = q.facts
  nodeLookup : ∀ id, p.nodeLookup.get id = q.nodeLookup.get id
  factLookup : ∀ id, p.factLookup.get id = q.factLookup.get id
  incidentOffsets : p.incidentOffsets = q.incidentOffsets
  incidentFacts : p.incidentFacts = q.incidentFacts
  incidentDelta : p.incidentDelta = q.incidentDelta
  supersessions : p.supersessions = q.supersessions
  retractions : p.retractions = q.retractions
  lastGlobalPosition : p.lastGlobalPosition = q.lastGlobalPosition

variable {p q : MemoryProjection}

theorem sameFields_default (seeds seeds' : Seeds) : SameFields (.default seeds) (.default seeds') where
  nodes := rfl
  facts := rfl
  nodeLookup := fun id => (get_withSeed seeds.nodes id).trans (get_withSeed seeds'.nodes id).symm
  factLookup := fun id => (get_withSeed seeds.facts id).trans (get_withSeed seeds'.facts id).symm
  incidentOffsets := rfl
  incidentFacts := rfl
  incidentDelta := rfl
  supersessions := rfl
  retractions := rfl
  lastGlobalPosition := rfl

namespace SameFields

theorem fact_eq (h : SameFields p q) (id : FactId) : fact p id = fact q id := by
  rw [fact, fact, h.factLookup, h.facts]

theorem requireEntity_eq (h : SameFields p q) (id : EntityId) : requireEntity p id = requireEntity q id := by
  rw [requireEntity, requireEntity, entityIndex, entityIndex, h.nodeLookup]

theorem containsKey_eq (h : SameFields p q) (id : FactId) :
    p.factLookup.containsKey id = q.factLookup.containsKey id := by
  rw [IdIndex.containsKey, IdIndex.containsKey, h.factLookup]

theorem admitPrior_eq (h : SameFields p q) (prior : Option FactId) : admitPrior p prior = admitPrior q prior := by
  cases prior with
  | none => rfl
  | some prior =>
      rw [admitPrior, admitPrior]
      simp only [h.containsKey_eq, h.supersessions]

theorem admitEvent_eq (h : SameFields p q) (event : StoredEvent MemoryEvent) :
    admitEvent p event = admitEvent q event := by
  rw [admitEvent, admitEvent]
  cases event.payload with
  | nodeUpserted node =>
      simp only [admitPayload, admitNode, h.nodeLookup, h.nodes]
  | factRecorded fact =>
      simp only [admitPayload, admitFact, h.requireEntity_eq, h.containsKey_eq, h.admitPrior_eq]
  | factRetracted factId validUntil evidence =>
      simp only [admitPayload, admitRetraction, h.fact_eq]

theorem applied (h : SameFields p q) (event : StoredEvent MemoryEvent) (change : Change) :
    SameFields (change.applied p event) (change.applied q event) := by
  cases change with
  | revise index history revision =>
      exact { h with
        nodes := congrArg (fun nodes => nodes.set index { history with later := history.later ++ [revision] }) h.nodes
        lastGlobalPosition := rfl }
  | add revision =>
      refine { h with nodes := ?_, nodeLookup := fun id => ?_, incidentOffsets := ?_, lastGlobalPosition := rfl }
      · exact congrArg (· ++ [NodeHistory.new revision]) h.nodes
      · refine (get_insert _ _ id _).trans (Eq.trans ?_ (get_insert _ _ id _).symm)
        rw [h.nodes, h.nodeLookup]
      · exact congrArg (fun offsets => offsets ++ [offsets.getLastD 0]) h.incidentOffsets
  | record fact source target =>
      refine { h with
        facts := ?_, factLookup := fun id => ?_, incidentDelta := ?_, supersessions := ?_, lastGlobalPosition := rfl }
      · exact congrArg (· ++ [fact]) h.facts
      · refine (get_insert _ _ id _).trans (Eq.trans ?_ (get_insert _ _ id _).symm)
        rw [h.facts, h.factLookup]
      · simp only [Change.applied, Change.commit, h.incidentDelta, h.facts]
      · exact congrArg (fun supersessions => supersede supersessions fact) h.supersessions
  | retract factId retraction =>
      exact { h with
        retractions := congrArg (fun retractions => retractions.insert factId retraction) h.retractions
        lastGlobalPosition := rfl }

theorem step (h : SameFields p q) (event : StoredEvent MemoryEvent) :
    Parallel SameFields (runOn (applyOwned event) p) (runOn (apply event) q) := by
  rw [runOn, runOn, applyOwned_eq, apply_eq, h.admitEvent_eq event]
  cases admitEvent q event with
  | ok change => exact h.applied event change
  | error e => exact rfl

end SameFields

theorem applyLoop_parallel {E P Q : Type} {same : P → Q → Prop} {step : StoredEvent E → Update P Unit}
    {step' : StoredEvent E → Update Q Unit} {requireZeroStart : Bool}
    (hstep : ∀ event p q, same p q → Parallel same (runOn (step event) p) (runOn (step' event) q))
    (events : List (StoredEvent E)) (eventIds : List EventId) (cursor : ReplayCursor) {p : P} {q : Q} (h : same p q) :
    Parallel (fun r r' => same r.1 r'.1 ∧ r.2 = r'.2) (applyLoop step requireZeroStart events eventIds p cursor)
      (applyLoop step' requireZeroStart events eventIds q cursor) := by
  induction events generalizing eventIds cursor p q with
  | nil => exact ⟨h, rfl⟩
  | cons event rest ih =>
      rw [applyLoop, applyLoop]
      refine (parallel_of_eq rfl).bind fun r r' hr => ?_
      subst hr
      exact (hstep event p q h).bind fun p q h => ih _ _ h

variable {allocator : Allocator}

theorem sizing_parallel {same : MemoryProjection → MemoryProjection → Prop} {call call' : Update MemoryProjection Unit}
    {s : Sized} {p : MemoryProjection} (h : Parallel same (runOn call s.projection) (runOn call' p)) :
    Parallel (fun s p => same s.projection p) (runOn (sizing allocator call) s) (runOn call' p) := by
  rw [runOn] at h
  rw [runOn, sizing]
  cases hc : call s.projection with
  | ok u q =>
      rw [hc] at h
      cases hr : runOn call' p with
      | ok q' =>
          rw [hr] at h
          exact h
      | error e =>
          rw [hr] at h
          exact h.elim
  | error e q =>
      rw [hc] at h
      cases hr : runOn call' p with
      | ok q' =>
          rw [hr] at h
          exact h.elim
      | error e' =>
          rw [hr] at h
          exact h

theorem applyLoop_sizing {same : MemoryProjection → MemoryProjection → Prop}
    {step step' : StoredEvent MemoryEvent → Update MemoryProjection Unit}
    (hstep : ∀ event p q, same p q → Parallel same (runOn (step event) p) (runOn (step' event) q))
    (events : List (StoredEvent MemoryEvent)) (s : Sized) (p : MemoryProjection) (h : same s.projection p) :
    Parallel (fun s p => same s.projection p)
      ((applyLoop (fun event => sizing allocator (step event)) true events [] s .default).map (·.1))
      ((applyLoop step' true events [] p .default).map (·.1)) := by
  have hloop := @applyLoop_parallel MemoryEvent Sized MemoryProjection (fun s p => same s.projection p)
    (fun event => sizing allocator (step event)) step' true
    (fun event s p h => sizing_parallel (hstep event s.projection p h)) events [] .default s p h
  exact hloop.map fun _ _ h => h.1

theorem parallel_refl (call : Update MemoryProjection Unit) {p q : MemoryProjection} (h : p = q) :
    Parallel Eq (runOn call p) (runOn call q) := parallel_of_eq (h ▸ rfl)

/-- What is reserved does not come back in the result. -/
theorem replay_reserved (allocator : Allocator) (seeds : Seeds) (events : List (StoredEvent MemoryEvent)) :
    (replay (sized allocator seeds) events).map Sized.projection = replay (unreserved seeds) events := by
  have hloop := @applyLoop_sizing allocator Eq apply apply (fun event p q h => parallel_refl (apply event) h) events
    (reserved allocator events ⟨.default seeds, allocator.empty⟩) (.default seeds) rfl
  have hmap := @Parallel.map _ _ _ _ _ _ Eq _ _ Sized.projection id hloop fun _ _ h => h
  rw [Except.map_id] at hmap
  exact eq_of_parallel hmap

theorem replayOwned_reserved (allocator : Allocator) (seeds : Seeds) (events : List (StoredEvent MemoryEvent)) :
    (replayOwned (sized allocator seeds) events).map Sized.projection = replayOwned (unreserved seeds) events := by
  have hloop :=
    @applyLoop_sizing allocator Eq applyOwned applyOwned (fun event p q h => parallel_refl (applyOwned event) h)
    events (reserved allocator events ⟨.default seeds, allocator.empty⟩) (.default seeds) rfl
  have hmap := @Parallel.map _ _ _ _ _ _ Eq _ _ Sized.projection id hloop fun _ _ h => h
  rw [Except.map_id] at hmap
  exact eq_of_parallel hmap

/-- Owned and borrowed replay end alike, whatever room each of them reserves, and reserving none at all
makes no difference to either. -/
theorem replays_agree (allocator allocator' : Allocator) (seeds seeds' : Seeds)
    (events : List (StoredEvent MemoryEvent)) :
    Parallel (fun owned borrowed => SameFields owned.projection borrowed.projection)
      (replayOwned (sized allocator seeds) events) (replay (sized allocator' seeds') events) ∧
    (replayOwned (sized allocator seeds) events).map Sized.projection = replayOwned (unreserved seeds) events ∧
    (replay (sized allocator seeds) events).map Sized.projection = replay (unreserved seeds) events := by
  refine ⟨?_, replayOwned_reserved allocator seeds events, replay_reserved allocator seeds events⟩
  apply Parallel.of_map
  rw [replay_reserved]
  exact applyLoop_sizing (fun event p q h => h.step event) events
    (reserved allocator events ⟨.default seeds, allocator.empty⟩) (.default seeds') (sameFields_default seeds seeds')

end WeavatrixMemory.Projection.Owned
