import WeavatrixMemory.Domain
import WeavatrixMemory.Projection.Index

namespace WeavatrixMemory.Projection.State

open Error Identity Domain Index

structure NodeRevision where
  node : MemoryNode
  recordedAt : Timestamp
  position : UInt64
deriving DecidableEq

structure NodeHistory where
  first : NodeRevision
  later : List NodeRevision
deriving DecidableEq

def NodeHistory.new (first : NodeRevision) : NodeHistory := ⟨first, []⟩

def NodeHistory.revisions (history : NodeHistory) : List NodeRevision := history.first :: history.later

def NodeHistory.id (history : NodeHistory) : EntityId := history.first.node.id

structure Supersession where
  replacement : FactId
  validFrom : Timestamp
  recordedAt : Timestamp
deriving DecidableEq

structure Retraction where
  validUntil : Timestamp
  recordedAt : Timestamp
deriving DecidableEq

/-- The projection. Vectors are lists; `incident_delta`, a hash map that is never iterated, is a
function. -/
structure MemoryProjection where
  nodes : List NodeHistory
  facts : List MemoryFact
  nodeLookup : IdIndex EntityId
  factLookup : IdIndex FactId
  incidentOffsets : List Nat
  incidentFacts : List Nat
  incidentDelta : Nat → Option (List Nat)
  supersessions : BTreeMap FactId Supersession
  retractions : BTreeMap FactId Retraction
  lastGlobalPosition : Option UInt64

structure Seeds where
  nodes : UInt64
  facts : UInt64

def MemoryProjection.withCapacity (seeds : Seeds) : MemoryProjection where
  nodes := []
  facts := []
  nodeLookup := .withSeed seeds.nodes
  factLookup := .withSeed seeds.facts
  incidentOffsets := [0]
  incidentFacts := []
  incidentDelta := fun _ => none
  supersessions := ∅
  retractions := ∅
  lastGlobalPosition := none

def MemoryProjection.default (seeds : Seeds) : MemoryProjection := .withCapacity seeds

def checkRevisions (id : EntityId) : List NodeRevision → Result Unit
  | [] => .ok ()
  | revision :: rest => do
      revision.node.validate
      throwIf (revision.node.id ≠ id)
        (.invalidValue "projection.nodes" "revision identifiers must match")
      checkRevisions id rest

def indexNodes : Nat → List NodeHistory → IdIndex EntityId → Result (IdIndex EntityId)
  | _, [], lookup => .ok lookup
  | index, revisions :: rest, lookup => do
      checkRevisions revisions.id revisions.revisions
      throwIf ((lookup.insert revisions.id index).1.isSome)
        (.invalidValue "projection.nodes" "node identifiers must be unique")
      indexNodes (index + 1) rest (lookup.insert revisions.id index).2

def entityIndex (lookup : IdIndex EntityId) (id : EntityId) : Result Nat :=
  match lookup.get id with
  | some index => .ok index
  | none => .error (.missingEntity id.toString)

def indexFacts (nodes : IdIndex EntityId) :
    Nat → List MemoryFact → IdIndex FactId → Result (List (Nat × Nat) × IdIndex FactId)
  | _, [], lookup => .ok ([], lookup)
  | index, fact :: rest, lookup => do
      fact.validate
      let source ← entityIndex nodes fact.source
      let target ← entityIndex nodes fact.target
      throwIf ((lookup.insert fact.id index).1.isSome) (.conflictingFact fact.id.toString)
      let (endpoints, lookup) ← indexFacts nodes (index + 1) rest (lookup.insert fact.id index).2
      .ok ((source, target) :: endpoints, lookup)

/-- `offsets[i] = offsets[i].checked_add(1)?`. -/
def bumpOffset (offsets : List Nat) (i : Nat) : Result (List Nat) := do
  let count ← getAt offsets i
  let count ← usizeChecked (count + 1)
  setAt offsets i count

def countIncidents : List (Nat × Nat) → List Nat → Result (List Nat)
  | [], offsets => .ok offsets
  | (source, target) :: rest, offsets => do
      let offsets ← bumpOffset offsets (source + 1)
      let offsets ← if target ≠ source then bumpOffset offsets (target + 1) else .ok offsets
      countIncidents rest offsets

/-- The loop over `index in 1..offsets.len()`, with the number of rounds left. -/
def sumOffsets : Nat → Nat → List Nat → Result (List Nat)
  | 0, _, offsets => .ok offsets
  | rounds + 1, index, offsets => do
      let count ← getAt offsets index
      let before ← getAt offsets (index - 1)
      let total ← usizeChecked (count + before)
      let offsets ← setAt offsets index total
      sumOffsets rounds (index + 1) offsets

/-- `incidents[cursor[node]] = fact; cursor[node] += 1`. -/
def placeIncident (node fact : Nat) (cursor incidents : List Nat) : Result (List Nat × List Nat) := do
  let slot ← getAt cursor node
  let incidents ← setAt incidents slot fact
  let cursor ← setAt cursor node (slot + 1)
  .ok (cursor, incidents)

def placeIncidents : Nat → List (Nat × Nat) → List Nat → List Nat → Result (List Nat × List Nat)
  | _, [], cursor, incidents => .ok (cursor, incidents)
  | fact, (source, target) :: rest, cursor, incidents => do
      let (cursor, incidents) ← placeIncident source fact cursor incidents
      let (cursor, incidents) ←
        if target ≠ source then placeIncident target fact cursor incidents else .ok (cursor, incidents)
      placeIncidents (fact + 1) rest cursor incidents

/-- The callers drop the projection when this or `rebuildIndexes` fails, so a failure carries
no state. -/
def MemoryProjection.setIncidents (p : MemoryProjection) (endpoints : List (Nat × Nat)) :
    Result MemoryProjection := do
  let offsets ← countIncidents endpoints (List.replicate (p.nodes.length + 1) 0)
  let offsets ← sumOffsets (offsets.length - 1) 1 offsets
  let cursor ← sliceAt offsets 0 p.nodes.length
  let incidents := List.replicate (offsets.getLastD 0) 0
  let (_, incidents) ← placeIncidents 0 endpoints cursor incidents
  .ok { p with
    incidentOffsets := offsets
    incidentFacts := incidents
    incidentDelta := fun _ => none }

def MemoryProjection.lookupFact (p : MemoryProjection) (id : FactId) : Result MemoryFact :=
  match p.factLookup.get id with
  | some index => getAt p.facts index
  | none => .error (.missingFact id.toString)

def MemoryProjection.validateSupersessions (p : MemoryProjection) :
    List (FactId × Supersession) → Result Unit
  | [] => .ok ()
  | (prior, change) :: rest => do
      let priorFact ← p.lookupFact prior
      let replacement ← p.lookupFact change.replacement
      throwIf (replacement.supersedes ≠ some priorFact.id ∨
          replacement.validFrom ≠ change.validFrom ∨ replacement.recordedAt ≠ change.recordedAt)
        (.invalidValue "projection.supersessions" "supersession index disagrees with replacement fact")
      p.validateSupersessions rest

def MemoryProjection.validateRetractions (p : MemoryProjection) :
    List (FactId × Retraction) → Result Unit
  | [] => .ok ()
  | (factId, change) :: rest => do
      let fact ← p.lookupFact factId
      throwIf (change.validUntil ≤ fact.validFrom)
        (.invalidValue "projection.retractions" "retraction must follow fact validity")
      p.validateRetractions rest

def MemoryProjection.validateChanges (p : MemoryProjection) : Result Unit := do
  p.validateSupersessions p.supersessions.toList
  p.validateRetractions p.retractions.toList

def MemoryProjection.rebuildIndexes (p : MemoryProjection) : Result MemoryProjection := do
  let nodeLookup ← indexNodes 0 p.nodes p.nodeLookup
  let (endpoints, factLookup) ← indexFacts nodeLookup 0 p.facts p.factLookup
  let p ← { p with nodeLookup, factLookup }.setIncidents endpoints
  p.validateChanges
  .ok p

/-- The serialized part of a projection, which both decoders read before they rebuild the rest. -/
structure ProjectionData where
  nodes : List NodeHistory
  facts : List MemoryFact
  supersessions : BTreeMap FactId Supersession
  retractions : BTreeMap FactId Retraction
  lastGlobalPosition : Option UInt64
deriving DecidableEq

def ProjectionData.unindexed (seeds : Seeds) (data : ProjectionData) : MemoryProjection where
  nodes := data.nodes
  facts := data.facts
  nodeLookup := .withSeed seeds.nodes
  factLookup := .withSeed seeds.facts
  incidentOffsets := []
  incidentFacts := []
  incidentDelta := fun _ => none
  supersessions := data.supersessions
  retractions := data.retractions
  lastGlobalPosition := data.lastGlobalPosition

/-- The body of `Deserialize for MemoryProjection`, and the end of the compact decoder. -/
def ProjectionData.deserialize (seeds : Seeds) (data : ProjectionData) : Result MemoryProjection :=
  (data.unindexed seeds).rebuildIndexes

/-- `Serialize for MemoryProjection`: the fields that `PartialEq` compares. -/
def MemoryProjection.data (p : MemoryProjection) : ProjectionData where
  nodes := p.nodes
  facts := p.facts
  supersessions := p.supersessions
  retractions := p.retractions
  lastGlobalPosition := p.lastGlobalPosition

end WeavatrixMemory.Projection.State
