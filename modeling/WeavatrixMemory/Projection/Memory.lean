import WeavatrixMemory.Projection.State

namespace WeavatrixMemory.Projection.Memory

open Error Identity Domain Index State

structure ProjectionClock where
  validAt : Timestamp
  knownAt : Timestamp
deriving DecidableEq

/-- `max_by_key` of the standard library returns the last of several maxima. -/
def maxBy {α : Type} (le : α → α → Bool) : List α → Option α
  | [] => none
  | a :: rest => some (rest.foldl (fun best b => if le best b then b else best) a)

def keyLe (a b : NodeRevision) : Bool :=
  a.recordedAt < b.recordedAt || (a.recordedAt == b.recordedAt && a.position ≤ b.position)

def visibleRevision (history : NodeHistory) (knownAt : Timestamp) : Option MemoryNode :=
  (maxBy keyLe (history.revisions.filter (fun revision => revision.recordedAt ≤ knownAt))).map
    (·.node)

def supersededBy (p : MemoryProjection) (fact : FactId) : Option FactId :=
  p.supersessions[fact]?.map (·.replacement)

def visibleNode (p : MemoryProjection) (id : EntityId) (knownAt : Timestamp) :
    Result (Option MemoryNode) :=
  match p.nodeLookup.get id with
  | none => .ok none
  | some index => do
      let history ← getAt p.nodes index
      .ok (visibleRevision history knownAt)

def fact (p : MemoryProjection) (id : FactId) : Result (Option MemoryFact) :=
  match p.factLookup.get id with
  | none => .ok none
  | some index => do
      let fact ← getAt p.facts index
      .ok (some fact)

/-- The iterator run to its end: the compressed row of the entity, then its delta. -/
def incidentFactIds (p : MemoryProjection) (id : EntityId) : Result (List FactId) :=
  match p.nodeLookup.get id with
  | none => .ok []
  | some index => do
      let lo ← getAt p.incidentOffsets index
      let hi ← getAt p.incidentOffsets (index + 1)
      let stable ← sliceAt p.incidentFacts lo hi
      let facts ← (stable ++ (p.incidentDelta index).getD []).mapM (getAt p.facts)
      .ok (facts.map (·.id))

def factIsActive (p : MemoryProjection) (fact : MemoryFact) (clock : ProjectionClock) : Bool :=
  if clock.knownAt < fact.recordedAt ∨ clock.validAt < fact.validFrom then false
  else if fact.validUntil.any (fun until_ => until_ ≤ clock.validAt) then false
  else if p.supersessions[fact.id]?.any (fun change =>
      change.recordedAt ≤ clock.knownAt ∧ change.validFrom ≤ clock.validAt) then false
  else !p.retractions[fact.id]?.any (fun change =>
      change.recordedAt ≤ clock.knownAt ∧ change.validUntil ≤ clock.validAt)

/-- The borrowed view. The set of visible identifiers is only built when a node is hidden. -/
def viewRef (p : MemoryProjection) (clock : ProjectionClock) : MemoryView :=
  let nodes := p.nodes.filterMap (visibleRevision · clock.knownAt)
  let visibleIds := if nodes.length ≠ p.nodes.length then some (nodes.map (·.id)) else none
  let facts := p.facts.filter fun fact =>
    visibleIds.all (fun visible => fact.source ∈ visible ∧ fact.target ∈ visible) &&
      factIsActive p fact clock
  ⟨nodes, facts⟩

def view (p : MemoryProjection) (clock : ProjectionClock) : MemoryView := viewRef p clock

def requireEntity (p : MemoryProjection) (id : EntityId) : Result Nat := entityIndex p.nodeLookup id

def insertNode (revision : NodeRevision) : Update MemoryProjection Unit := do
  revision.node.validate
  let p ← get
  match p.nodeLookup.get revision.node.id with
  | some index => do
      let history ← getAt p.nodes index
      set { p with
        nodes := p.nodes.set index { history with later := history.later ++ [revision] } }
  | none =>
      set { p with
        nodeLookup := (p.nodeLookup.insert revision.node.id p.nodes.length).2
        nodes := p.nodes ++ [NodeHistory.new revision]
        incidentOffsets := p.incidentOffsets ++ [p.incidentOffsets.getLastD 0] }

def applySupersession (prior : FactId) (fact : MemoryFact) : Update MemoryProjection Unit := do
  let p ← get
  throwIf (!p.factLookup.containsKey prior) (.missingFact prior.toString)
  throwIf (p.supersessions.contains prior) (.conflictingFact prior.toString)
  set { p with
    supersessions := p.supersessions.insert prior ⟨fact.id, fact.validFrom, fact.recordedAt⟩ }

/-- `incident_delta.entry(node).or_default().push(index)`. -/
def pushDelta (delta : Nat → Option (List Nat)) (node index : Nat) : Nat → Option (List Nat) :=
  Function.update delta node (some ((delta node).getD [] ++ [index]))

def insertFact (fact : MemoryFact) : Update MemoryProjection Unit := do
  fact.validate
  let source ← requireEntity (← get) fact.source
  let target ← requireEntity (← get) fact.target
  throwIf ((← get).factLookup.containsKey fact.id) (.conflictingFact fact.id.toString)
  match fact.supersedes with
  | some prior => applySupersession prior fact
  | none => pure ()
  modify fun p =>
    let index := p.facts.length
    let delta := pushDelta p.incidentDelta source index
    { p with
      factLookup := (p.factLookup.insert fact.id index).2
      incidentDelta := if target ≠ source then pushDelta delta target index else delta
      facts := p.facts ++ [fact] }

def applyRetraction (recordedAt : Timestamp) (factId : FactId) (validUntil : Timestamp)
    (evidence : List Evidence) : Update MemoryProjection Unit := do
  match ← fact (← get) factId with
  | none => throw (.missingFact factId.toString)
  | some fact =>
      throwIf (validUntil ≤ fact.validFrom)
        (.invalidValue "retraction.valid_until" "must be later than the fact valid_from")
      throwIf (evidence = [])
        (.invalidValue "retraction.evidence" "at least one evidence item is required")
      validateEvidence evidence
      modify fun p => { p with retractions := p.retractions.insert factId ⟨validUntil, recordedAt⟩ }

/-- Reserving capacity leaves every field as it is. -/
def prepareReplay (_events : List (StoredEvent MemoryEvent)) (p : MemoryProjection) :
    MemoryProjection := p

def apply (event : StoredEvent MemoryEvent) : Update MemoryProjection Unit := do
  throwIf (event.metadata.eventType.str ≠ event.payload.eventType)
    (.invalidValue "event_type" "must match the memory event payload")
  match event.payload with
  | .nodeUpserted node =>
      insertNode ⟨node, event.metadata.recordedAt, event.metadata.globalPosition⟩
  | .factRecorded fact => do
      throwIf (fact.recordedAt ≠ event.metadata.recordedAt ∨
          fact.agentId ≠ event.metadata.agentId ∨ fact.sessionId ≠ event.metadata.sessionId)
        (.invalidValue "fact.envelope" "fact provenance must match its event envelope")
      insertFact fact
  | .factRetracted factId validUntil evidence =>
      applyRetraction event.metadata.recordedAt factId validUntil evidence.items
  modify fun p => { p with lastGlobalPosition := some event.metadata.globalPosition }

def applyOwned (event : StoredEvent MemoryEvent) : Update MemoryProjection Unit := do
  let ⟨metadata, payload⟩ := event
  throwIf (metadata.eventType.str ≠ payload.eventType)
    (.invalidValue "event_type" "must match the memory event payload")
  match payload with
  | .nodeUpserted node => insertNode ⟨node, metadata.recordedAt, metadata.globalPosition⟩
  | .factRecorded fact => do
      throwIf (fact.recordedAt ≠ metadata.recordedAt ∨ fact.agentId ≠ metadata.agentId ∨
          fact.sessionId ≠ metadata.sessionId)
        (.invalidValue "fact.envelope" "fact provenance must match its event envelope")
      insertFact fact
  | .factRetracted factId validUntil evidence =>
      applyRetraction metadata.recordedAt factId validUntil evidence.items
  modify fun p => { p with lastGlobalPosition := some metadata.globalPosition }

end WeavatrixMemory.Projection.Memory
