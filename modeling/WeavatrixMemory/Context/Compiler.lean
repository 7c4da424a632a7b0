import WeavatrixMemory.Projection.Memory

namespace WeavatrixMemory.Context.Compiler

open Error Identity Domain Projection.State Projection.Memory

structure ContextRequest where
  seeds : List EntityId
  validAt : Timestamp
  knownAt : Timestamp
  tokenBudget : Nat
  maxDepth : Nat
  relations : BTreeSet Text
  repositories : BTreeSet Text
  branches : BTreeSet Text

/-- Both constructors check the budget, and the first one that there is a seed. -/
def ContextRequest.checked (seeds : List EntityId) (validAt knownAt : Timestamp) (tokenBudget : Nat) :
    Result ContextRequest := do
  throwIf (tokenBudget = 0) (.invalidValue "context.token_budget" "must be greater than zero")
  .ok ⟨seeds, validAt, knownAt, tokenBudget, 2, ∅, ∅, ∅⟩

def ContextRequest.new (seeds : List EntityId) (validAt knownAt : Timestamp) (tokenBudget : Nat) :
    Result ContextRequest := do
  throwIf (seeds = []) (.invalidValue "context.seeds" "at least one seed is required")
  ContextRequest.checked seeds validAt knownAt tokenBudget

def ContextRequest.forRetrieval (validAt knownAt : Timestamp) (tokenBudget : Nat) : Result ContextRequest :=
  ContextRequest.checked [] validAt knownAt tokenBudget

def ContextRequest.withMaxDepth (request : ContextRequest) (maxDepth : Nat) : ContextRequest :=
  { request with maxDepth := maxDepth }

def ContextRequest.includeRelation (request : ContextRequest) (relation : Text) : ContextRequest :=
  { request with relations := request.relations.insert relation }

def ContextRequest.inRepository (request : ContextRequest) (repository : Text) : ContextRequest :=
  { request with repositories := request.repositories.insert repository }

def ContextRequest.onBranch (request : ContextRequest) (branch : Text) : ContextRequest :=
  { request with branches := request.branches.insert branch }

structure ContextReceipt where
  validAt : Timestamp
  knownAt : Timestamp
  sourcePosition : Option UInt64
  estimator : String
  tokenBudget : Nat
  estimatedTokens : Nat
  examinedFacts : Nat
  selectedFacts : Nat
  omittedByBudget : Nat
  excludedByScope : Nat
deriving DecidableEq

structure ContextBundle (Graph : Type) where
  view : MemoryView
  graph : Graph
  receipt : ContextReceipt

def nodeAllowed (request : ContextRequest) (node : MemoryNode) : Bool :=
  (request.repositories.isEmpty || node.repository.any (request.repositories.contains ·)) &&
    (request.branches.isEmpty || node.branch.any (request.branches.contains ·))

def relationAllowed (request : ContextRequest) (relation : Text) : Bool :=
  request.relations.isEmpty || request.relations.contains relation

/-- The trait `TokenEstimator`. Sums of estimates stay within `usize`. -/
structure TokenEstimator where
  estimate : String → Nat
  name : String

structure BytesTokenEstimator where
  bytesPerToken : Nat
  positive : bytesPerToken ≠ 0

def BytesTokenEstimator.new (bytesPerToken : Nat) : Result BytesTokenEstimator :=
  if h : bytesPerToken = 0 then .error (.invalidValue "bytes_per_token" "must be greater than zero")
  else .ok ⟨bytesPerToken, h⟩

def BytesTokenEstimator.default : BytesTokenEstimator := ⟨4, by decide⟩

def BytesTokenEstimator.estimator (bytes : BytesTokenEstimator) : TokenEstimator where
  estimate value := max ((value.utf8ByteSize + (bytes.bytesPerToken - 1)) / bytes.bytesPerToken) 1
  name := "utf8_bytes"

def nodeTokens (estimator : TokenEstimator) (node : MemoryNode) : Nat :=
  estimator.estimate node.id.text.str + estimator.estimate node.kind.str + estimator.estimate node.label.str +
    ((node.repository.toList ++ node.branch.toList).map fun value => estimator.estimate value.str).sum +
    (node.attributes.toList.map fun (key, value) => estimator.estimate key.str + estimator.estimate value.str).sum + 6

def factTokens (estimator : TokenEstimator) (fact : MemoryFact) : Nat :=
  estimator.estimate fact.id.text.str + estimator.estimate fact.source.text.str +
    estimator.estimate fact.relation.str + estimator.estimate fact.target.text.str +
    (fact.evidence.items.map fun item => estimator.estimate item.kind.str + estimator.estimate item.source.str +
      ((item.locator.toList ++ item.digest.toList).map fun value => estimator.estimate value.str).sum).sum + 16

/-- An index expression on a map, which panics where the key is missing. -/
def indexMap {κ β : Type} [Ord κ] [Std.TransOrd κ] (m : BTreeMap κ β) (key : κ) : Result β :=
  match m[key]? with
  | some value => .ok value
  | none => .error .panicked

def dedup {α : Type} [DecidableEq α] : List α → List α
  | [] => []
  | [a] => [a]
  | a :: b :: rest => if a = b then dedup (b :: rest) else a :: dedup (b :: rest)

def sortedSeeds (request : ContextRequest) : List EntityId :=
  dedup (request.seeds.mergeSort fun a b => (compare a b).isLE)

structure Search where
  nodes : BTreeMap EntityId MemoryNode
  facts : BTreeMap FactId MemoryFact
  distances : BTreeMap EntityId Nat
  queue : List EntityId
  excluded : BTreeSet FactId

def scopedNode (p : MemoryProjection) (request : ContextRequest) (id : EntityId) : Result MemoryNode := do
  let node ← visibleNode p id request.knownAt
  match node.filter (nodeAllowed request) with
  | some node => .ok node
  | none => .error (.missingEntity id.toString)

def startSearch (p : MemoryProjection) (request : ContextRequest) : List EntityId → Search → Result Search
  | [], s => .ok s
  | seed :: rest, s => do
      let node ← scopedNode p request seed
      startSearch p request rest
        { s with
          nodes := s.nodes.insert seed node
          distances := s.distances.insert seed 0
          queue := s.queue ++ [seed] }

/-- `projection.fact(id).expect(..)`. -/
def expectFact (p : MemoryProjection) (id : FactId) : Result MemoryFact := do
  match ← fact p id with
  | some fact => .ok fact
  | none => .error .panicked

def otherEnd (current : EntityId) (fact : MemoryFact) : EntityId :=
  if fact.source = current then fact.target else fact.source

def visitFact (p : MemoryProjection) (request : ContextRequest) (current : EntityId) (depth : Nat) (s : Search)
    (factId : FactId) : Result Search := do
  let fact ← expectFact p factId
  if !factIsActive p fact ⟨request.validAt, request.knownAt⟩ || !relationAllowed request fact.relation then .ok s
  else do
    let other := otherEnd current fact
    match ← visibleNode p other request.knownAt with
    | none => .ok s
    | some otherNode =>
        if !nodeAllowed request otherNode then .ok { s with excluded := s.excluded.insert fact.id }
        else if !s.distances.contains other then
          if request.maxDepth ≤ depth then .ok s
          else .ok { s with
            distances := s.distances.insert other (depth + 1)
            nodes := s.nodes.insert other otherNode
            queue := s.queue ++ [other]
            facts := s.facts.insert fact.id fact }
        else .ok { s with facts := s.facts.insert fact.id fact }

/-- The loop over the queue, with a bound on the rounds. -/
def searchLoop (p : MemoryProjection) (request : ContextRequest) : Nat → Search → Result Search
  | 0, _ => .error .panicked
  | rounds + 1, s =>
      match s.queue with
      | [] => .ok s
      | current :: rest => do
          let depth ← indexMap s.distances current
          let factIds ← incidentFactIds p current
          let s ← factIds.foldlM (visitFact p request current depth) { s with queue := rest }
          searchLoop p request rounds s

structure Neighborhood where
  nodes : BTreeMap EntityId MemoryNode
  facts : BTreeMap FactId MemoryFact
  distances : BTreeMap EntityId Nat
  excluded : Nat

def neighborhood (p : MemoryProjection) (request : ContextRequest) : Result Neighborhood := do
  let seeds := sortedSeeds request
  let s ← startSearch p request seeds ⟨∅, ∅, ∅, [], ∅⟩
  let s ← searchLoop p request (p.nodes.length + seeds.length + 1) s
  .ok
    { nodes := s.nodes
      facts := s.facts.filter fun _ fact => s.distances.contains fact.source && s.distances.contains fact.target
      distances := s.distances
      excluded := s.excluded.size }

def chargeSeeds (estimator : TokenEstimator) (nodes : BTreeMap EntityId MemoryNode) :
    List EntityId → BTreeSet EntityId → Nat → Result (BTreeSet EntityId × Nat)
  | [], selected, used => .ok (selected, used)
  | seed :: rest, selected, used =>
      match nodes[seed]? with
      | none => .error (.missingEntity seed.toString)
      | some node => chargeSeeds estimator nodes rest (selected.insert seed) (used + nodeTokens estimator node)

def selectSeeds (estimator : TokenEstimator) (request : ContextRequest) (nodes : BTreeMap EntityId MemoryNode) :
    Result (BTreeSet EntityId × Nat) := do
  let (selected, used) ← chargeSeeds estimator nodes (sortedSeeds request) ∅ 0
  throwIf (request.tokenBudget < used) (.budgetTooSmall used request.tokenBudget)
  .ok (selected, used)

/-- The key that candidates are sorted by: the distance, then the highest confidence, the latest
recording and the identifier. -/
structure Priority where
  distance : Nat
  confidence : UInt16
  recordedAt : Timestamp
  id : FactId

def Priority.le (a b : Priority) : Bool :=
  a.distance < b.distance || (a.distance == b.distance &&
    (b.confidence < a.confidence || (a.confidence == b.confidence &&
      (b.recordedAt < a.recordedAt || (a.recordedAt == b.recordedAt && (compare a.id b.id).isLE)))))

def priority (distances : BTreeMap EntityId Nat) (fact : MemoryFact) : Result Priority := do
  let source ← indexMap distances fact.source
  let target ← indexMap distances fact.target
  .ok ⟨min source target, fact.confidence.basisPoints, fact.recordedAt, fact.id⟩

def rankCandidates (distances : BTreeMap EntityId Nat) (candidates : List MemoryFact) : Result (List MemoryFact) := do
  let keyed ← candidates.mapM fun fact => do
    let key ← priority distances fact
    .ok (key, fact)
  .ok ((keyed.mergeSort fun a b => a.1.le b.1).map (·.2))

structure Selection where
  selected : BTreeSet EntityId
  used : Nat
  facts : List MemoryFact
  omitted : Nat

def selectFact (estimator : TokenEstimator) (request : ContextRequest) (nodes : BTreeMap EntityId MemoryNode)
    (s : Selection) (fact : MemoryFact) : Result Selection := do
  let missing := [fact.source, fact.target].filter fun id => !s.selected.contains id
  let costs ← missing.mapM fun id => do
    let node ← indexMap nodes id
    .ok (nodeTokens estimator node)
  let cost := factTokens estimator fact + costs.sum
  if request.tokenBudget < s.used + cost then .ok { s with omitted := s.omitted + 1 }
  else .ok { s with
    used := s.used + cost
    selected := missing.foldl (fun selected id => selected.insert id) s.selected
    facts := s.facts ++ [fact] }

/-- `compile`, over the conversion into a graph of another crate. -/
def compile {Graph : Type} (projectGraph : MemoryView → Result Graph) (estimator : TokenEstimator)
    (p : MemoryProjection) (request : ContextRequest) : Result (ContextBundle Graph) := do
  throwIf (request.seeds = []) (.invalidValue "context.seeds" "at least one seed is required")
  let found ← neighborhood p request
  let (selected, used) ← selectSeeds estimator request found.nodes
  let candidates ← rankCandidates found.distances (found.facts.toList.map (·.2))
  let selection ← candidates.foldlM (selectFact estimator request found.nodes) ⟨selected, used, [], 0⟩
  let nodes ← selection.selected.toList.mapM (indexMap found.nodes)
  let facts := selection.facts.mergeSort fun left right => (compare left.id right.id).isLE
  let view : MemoryView := ⟨nodes, facts⟩
  let graph ← projectGraph view
  .ok
    { view := view
      graph := graph
      receipt :=
        { validAt := request.validAt
          knownAt := request.knownAt
          sourcePosition := p.lastGlobalPosition
          estimator := estimator.name
          tokenBudget := request.tokenBudget
          estimatedTokens := selection.used
          examinedFacts := candidates.length
          selectedFacts := facts.length
          omittedByBudget := selection.omitted
          excludedByScope := found.excluded } }

end WeavatrixMemory.Context.Compiler
