import WeavatrixMemory.Domain

namespace WeavatrixMemory.GraphProjection

open Error Identity Domain

inductive AttributeValue
  | string (value : String)
  | signed (value : Int64)
  | unsigned (value : UInt64)
  | list (values : List AttributeValue)

inductive Level
  | exact | high | medium | low
deriving DecidableEq

/-- What is called of the graph crate. Its errors come back as their texts. -/
structure GraphCrate where
  NodeKind : Type
  EdgeKind : Type
  EvidenceKind : Type
  NodeId : Type
  Node : Type
  Provenance : Type
  Edge : Type
  Graph : Type
  nodeKind : String → Except String NodeKind
  edgeKind : String → Except String EdgeKind
  evidenceKind : String → Except String EvidenceKind
  newNode : String → String → NodeKind → Except String Node
  nodeId : Node → NodeId
  nodeAttribute : Node → String → AttributeValue → Node
  newProvenance : String → EvidenceKind → Level → Except String Provenance
  withDetail : Provenance → String → Provenance
  newEdge : NodeId → NodeId → EdgeKind → Provenance → Edge
  edgeAttribute : Edge → String → AttributeValue → Edge
  tryFromSortedNodes : List Node → List Edge → Except String Graph

/-- `From<GraphError> for MemoryError`. -/
def ofGraph {α : Type} : Except String α → Result α
  | .ok a => .ok a
  | .error reason => .error (.graph reason)

variable (crate : GraphCrate)

def projectNode (node : MemoryNode) : Result crate.Node := do
  let kind ← ofGraph (crate.nodeKind node.kind.str)
  let made ← ofGraph (crate.newNode node.id.text.str node.label.str kind)
  let made := node.repository.elim made fun repository =>
    crate.nodeAttribute made "memory.repository" (.string repository.str)
  let made := node.branch.elim made fun branch => crate.nodeAttribute made "memory.branch" (.string branch.str)
  .ok (node.attributes.toList.foldl
    (fun made entry => crate.nodeAttribute made ("memory." ++ entry.1.str) (.string entry.2.str)) made)

def projectNodes :
    List MemoryNode → BTreeMap EntityId crate.NodeId → Result (List crate.Node × BTreeMap EntityId crate.NodeId)
  | [], ids => .ok ([], ids)
  | node :: rest, ids => do
      let made ← projectNode crate node
      let (nodes, ids) ← projectNodes rest (ids.insert node.id (crate.nodeId made))
      .ok (made :: nodes, ids)

def endpoint (ids : BTreeMap EntityId crate.NodeId) (id : EntityId) : Result crate.NodeId :=
  match ids[id]? with
  | some nodeId => .ok nodeId
  | none => .error (.missingEntity id.toString)

def graphConfidence (confidence : Confidence) : Level :=
  if 9500 ≤ confidence.basisPoints ∧ confidence.basisPoints ≤ 10000 then .exact
  else if 8000 ≤ confidence.basisPoints ∧ confidence.basisPoints ≤ 9499 then .high
  else if 5000 ≤ confidence.basisPoints ∧ confidence.basisPoints ≤ 7999 then .medium
  else .low

def evidenceText (item : Evidence) : String :=
  item.kind.str ++ ":" ++ item.source.str ++ ":" ++ item.locator.elim "" (·.str)

def projectFact (ids : BTreeMap EntityId crate.NodeId) (fact : MemoryFact) : Result crate.Edge := do
  let source ← endpoint crate ids fact.source
  let target ← endpoint crate ids fact.target
  let primary ← getAt fact.evidence.items 0
  let kind ← ofGraph (crate.evidenceKind primary.kind.str)
  let provenance ← ofGraph (crate.newProvenance primary.source.str kind (graphConfidence fact.confidence))
  let provenance := crate.withDetail provenance (primary.locator.elim fact.id.toString (·.str))
  let relation ← ofGraph (crate.edgeKind fact.relation.str)
  let edge := crate.newEdge source target relation provenance
  let edge := crate.edgeAttribute edge "memory.fact_id" (.string fact.id.toString)
  let edge := crate.edgeAttribute edge "memory.valid_from" (.signed fact.validFrom.micros)
  let edge := crate.edgeAttribute edge "memory.recorded_at" (.signed fact.recordedAt.micros)
  let edge := crate.edgeAttribute edge "memory.confidence_bps" (.unsigned fact.confidence.basisPoints.toUInt64)
  let edge := crate.edgeAttribute edge "memory.evidence"
    (.list (fact.evidence.items.map fun item => .string (evidenceText item)))
  let edge := fact.validUntil.elim edge fun until_ =>
    crate.edgeAttribute edge "memory.valid_until" (.signed until_.micros)
  .ok (fact.supersedes.elim edge fun prior =>
    crate.edgeAttribute edge "memory.supersedes" (.string prior.toString))

def projectGraph (view : MemoryView) : Result crate.Graph := do
  let (nodes, ids) ← projectNodes crate view.nodes ∅
  let edges ← view.facts.mapM (projectFact crate ids)
  ofGraph (crate.tryFromSortedNodes nodes edges)

end WeavatrixMemory.GraphProjection
