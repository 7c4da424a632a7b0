import WeavatrixMemory.Identity

namespace WeavatrixMemory.Domain

open Error Identity

def validateText (field : String) (value : Text) : Result Unit :=
  if Trimmed value.str then .ok ()
  else .error (.invalidValue field "must be non-empty without surrounding whitespace")

def validateOptionalText (field : String) : Option Text → Result Unit
  | none => .ok ()
  | some value => validateText field value

theorem validateText_eq_ok {field : String} {value : Text} : validateText field value = .ok () ↔ Trimmed value.str := by
  rw [validateText]
  split
  next h => exact iff_of_true rfl h
  next h =>
    refine iff_of_false ?_ h
    intro hv
    cases hv

theorem validateOptionalText_eq_ok {field : String} {value : Option Text} :
    validateOptionalText field value = .ok () ↔ ∀ text, value = some text → Trimmed text.str := by
  cases value with
  | none =>
      refine iff_of_true rfl ?_
      intro text h
      cases h
  | some text =>
      rw [validateOptionalText, validateText_eq_ok]
      constructor
      · intro h other hother
        rwa [← Option.some.inj hother]
      · intro h
        exact h text rfl

/-- Basis points. The derived `Deserialize` admits every `u16`, so no bound is part of the type. -/
structure Confidence where
  basisPoints : UInt16
deriving DecidableEq

def Confidence.certain : Confidence := ⟨10000⟩

def Confidence.fromBasisPoints (value : UInt16) : Result Confidence :=
  if 10000 < value then
    .error (.invalidValue "confidence" "must be between 0 and 10,000 basis points")
  else .ok ⟨value⟩

structure Evidence where
  kind : Text
  source : Text
  locator : Option Text
  digest : Option Text
deriving DecidableEq

def Evidence.validate (evidence : Evidence) : Result Unit := do
  validateText "evidence.kind" evidence.kind
  validateText "evidence.source" evidence.source
  validateOptionalText "evidence.locator" evidence.locator
  validateOptionalText "evidence.digest" evidence.digest

def Evidence.new (kind source : Text) : Result Evidence := do
  let evidence : Evidence := ⟨kind, source, none, none⟩
  evidence.validate
  .ok evidence

def Evidence.withLocator (evidence : Evidence) (locator : Text) : Evidence :=
  { evidence with locator := some locator }

def Evidence.withDigest (evidence : Evidence) (digest : Text) : Evidence := { evidence with digest := some digest }

/-- `try_for_each(Evidence::validate)`: the first failure wins. -/
def validateEvidence : List Evidence → Result Unit
  | [] => .ok ()
  | evidence :: rest => do
      evidence.validate
      validateEvidence rest

theorem validateEvidence_eq_ok {evidence : List Evidence} :
    validateEvidence evidence = .ok () ↔ ∀ item ∈ evidence, Trimmed item.kind.str ∧ Trimmed item.source.str ∧
      (∀ locator, item.locator = some locator → Trimmed locator.str) ∧
      ∀ digest, item.digest = some digest → Trimmed digest.str := by
  induction evidence with
  | nil => exact iff_of_true rfl fun _ h => absurd h List.not_mem_nil
  | cons item rest ih =>
      rw [validateEvidence, unit_bind_eq_ok, ih, List.forall_mem_cons, Evidence.validate]
      simp only [unit_bind_eq_ok, validateText_eq_ok, validateOptionalText_eq_ok]

structure MemoryNode where
  id : EntityId
  kind : Text
  label : Text
  repository : Option Text
  branch : Option Text
  attributes : BTreeMap Text Text
  attributesFit : attributes.size < 2 ^ 63
deriving DecidableEq

def validateAttributeKeys : List Text → Result Unit
  | [] => .ok ()
  | key :: rest => do
      validateText "node.attribute.key" key
      validateAttributeKeys rest

def MemoryNode.validate (node : MemoryNode) : Result Unit := do
  validateText "node.kind" node.kind
  throwIf (node.label.str = "") (.invalidValue "node.label" "must be non-empty")
  validateOptionalText "node.repository" node.repository
  validateOptionalText "node.branch" node.branch
  validateAttributeKeys node.attributes.keys

theorem validateAttributeKeys_eq_ok {keys : List Text} :
    validateAttributeKeys keys = .ok () ↔ ∀ key ∈ keys, Trimmed key.str := by
  induction keys with
  | nil => exact iff_of_true rfl fun _ h => absurd h List.not_mem_nil
  | cons key keys ih =>
      rw [validateAttributeKeys, unit_bind_eq_ok, ih, List.forall_mem_cons, validateText_eq_ok]

theorem MemoryNode.validate_eq_ok {node : MemoryNode} : node.validate = .ok () ↔
    Trimmed node.kind.str ∧ node.label.str ≠ "" ∧
      (∀ repository, node.repository = some repository → Trimmed repository.str) ∧
      (∀ branch, node.branch = some branch → Trimmed branch.str) ∧
      ∀ key ∈ node.attributes, Trimmed key.str := by
  simp only [MemoryNode.validate, unit_bind_eq_ok, validateText_eq_ok, throwIf_eq_ok, validateOptionalText_eq_ok,
    validateAttributeKeys_eq_ok, Std.ExtTreeMap.mem_keys, ne_eq]

theorem emptyAttributes_fit : (∅ : BTreeMap Text Text).size < 2 ^ 63 := by decide

def MemoryNode.new (id : EntityId) (kind label : Text) : Result MemoryNode := do
  let node : MemoryNode := ⟨id, kind, label, none, none, ∅, emptyAttributes_fit⟩
  node.validate
  .ok node

def MemoryNode.inRepository (node : MemoryNode) (repository : Text) : MemoryNode :=
  { node with repository := some repository }

def MemoryNode.onBranch (node : MemoryNode) (branch : Text) : MemoryNode := { node with branch := some branch }

/-- The insertion into the attributes; a map that does not fit ends the call. -/
def MemoryNode.withAttribute (node : MemoryNode) (key value : Text) : Result MemoryNode :=
  if h : (node.attributes.insert key value).size < 2 ^ 63 then
    .ok { node with attributes := node.attributes.insert key value, attributesFit := h }
  else .error .panicked

theorem MemoryNode.withAttribute_eq_ok {node next : MemoryNode} {key value : Text} :
    node.withAttribute key value = .ok next ↔ next.attributes = node.attributes.insert key value ∧
      next.id = node.id ∧ next.kind = node.kind ∧ next.label = node.label ∧
      next.repository = node.repository ∧ next.branch = node.branch := by
  rw [MemoryNode.withAttribute]
  split
  next h =>
    rw [Except.ok.injEq]
    constructor
    · rintro rfl
      exact ⟨rfl, rfl, rfl, rfl, rfl, rfl⟩
    · intro hn
      cases next
      obtain ⟨rfl, rfl, rfl, rfl, rfl, rfl⟩ := hn
      rfl
  next h =>
    simp only [reduceCtorEq, false_iff]
    rintro ⟨hn, -⟩
    exact h (hn ▸ next.attributesFit)

structure MemoryFact where
  id : FactId
  source : EntityId
  relation : Text
  target : EntityId
  validFrom : Timestamp
  validUntil : Option Timestamp
  observedAt : Timestamp
  recordedAt : Timestamp
  agentId : AgentId
  sessionId : SessionId
  confidence : Confidence
  evidence : Vec Evidence
  supersedes : Option FactId
deriving DecidableEq

def MemoryFact.validate (fact : MemoryFact) : Result Unit := do
  validateText "fact.relation" fact.relation
  throwIf (fact.recordedAt < fact.observedAt)
    (.invalidValue "fact.observed_at" "must not be later than recorded_at")
  throwIf (fact.validUntil.any (· ≤ fact.validFrom))
    (.invalidValue "fact.valid_until" "must be later than valid_from")
  throwIf (fact.evidence.items = [])
    (.invalidValue "fact.evidence" "at least one evidence item is required")
  validateEvidence fact.evidence.items

theorem MemoryFact.validate_eq_ok {fact : MemoryFact} : fact.validate = .ok () ↔
    Trimmed fact.relation.str ∧ fact.observedAt ≤ fact.recordedAt ∧
      (∀ until_, fact.validUntil = some until_ → fact.validFrom < until_) ∧ fact.evidence.items ≠ [] ∧
      ∀ item ∈ fact.evidence.items, Trimmed item.kind.str ∧ Trimmed item.source.str ∧
        (∀ locator, item.locator = some locator → Trimmed locator.str) ∧
        ∀ digest, item.digest = some digest → Trimmed digest.str := by
  have huntil : ¬ fact.validUntil.any (· ≤ fact.validFrom) = true ↔
      ∀ until_, fact.validUntil = some until_ → fact.validFrom < until_ := by
    cases fact.validUntil <;> simp
  simp only [MemoryFact.validate, unit_bind_eq_ok, throwIf_eq_ok, validateText_eq_ok, validateEvidence_eq_ok,
    huntil, not_lt, ne_eq]

def MemoryFact.new (id : FactId) (source : EntityId) (relation : Text) (target : EntityId)
    (validFrom recordedAt : Timestamp) (agentId : AgentId) (sessionId : SessionId) (evidence : Evidence) :
    Result MemoryFact := do
  let fact : MemoryFact :=
    { id := id
      source := source
      relation := relation
      target := target
      validFrom := validFrom
      validUntil := none
      observedAt := recordedAt
      recordedAt := recordedAt
      agentId := agentId
      sessionId := sessionId
      confidence := .certain
      evidence := ⟨[evidence], Nat.one_lt_two_pow (by decide)⟩
      supersedes := none }
  fact.validate
  .ok fact

def MemoryFact.until (fact : MemoryFact) (value : Timestamp) : Result MemoryFact := do
  let fact : MemoryFact := { fact with validUntil := some value }
  fact.validate
  .ok fact

def MemoryFact.observed (fact : MemoryFact) (value : Timestamp) : MemoryFact :=
  { fact with observedAt := value }

def MemoryFact.withConfidence (fact : MemoryFact) (value : Confidence) : MemoryFact :=
  { fact with confidence := value }

def MemoryFact.withEvidence (fact : MemoryFact) (evidence : Evidence) : Result MemoryFact := do
  let evidence ← fact.evidence.push evidence
  .ok { fact with evidence }

inductive MemoryEvent
  | nodeUpserted (node : MemoryNode)
  | factRecorded (fact : MemoryFact)
  | factRetracted (factId : FactId) (validUntil : Timestamp) (evidence : Vec Evidence)
deriving DecidableEq

def MemoryEvent.eventType : MemoryEvent → String
  | .nodeUpserted _ => "node_upserted"
  | .factRecorded _ => "fact_recorded"
  | .factRetracted .. => "fact_retracted"

structure MemoryView where
  nodes : List MemoryNode
  facts : List MemoryFact
deriving DecidableEq

/-- An event as a caller proposes it. Its fields are public, so any values can meet the store. -/
structure NewEvent (E : Type) where
  id : EventId
  eventType : Text
  occurredAt : Timestamp
  recordedAt : Timestamp
  agentId : AgentId
  sessionId : SessionId
  correlationId : Option EventId
  causationId : Option EventId
  payload : E
deriving DecidableEq

def NewEvent.new {E : Type} (id : EventId) (eventType : Text) (occurredAt recordedAt : Timestamp)
    (agentId : AgentId) (sessionId : SessionId) (payload : E) : Result (NewEvent E) := do
  throwIf (¬ Trimmed eventType.str)
    (.invalidValue "event_type" "must be non-empty without surrounding whitespace")
  throwIf (recordedAt < occurredAt) (.invalidValue "occurred_at" "must not be later than recorded_at")
  .ok
    { id := id
      eventType := eventType
      occurredAt := occurredAt
      recordedAt := recordedAt
      agentId := agentId
      sessionId := sessionId
      correlationId := none
      causationId := none
      payload := payload }

theorem NewEvent.new_eq_ok {E : Type} {id : EventId} {eventType : Text} {occurredAt recordedAt : Timestamp}
    {agentId : AgentId} {sessionId : SessionId} {payload : E} {event : NewEvent E} :
    NewEvent.new id eventType occurredAt recordedAt agentId sessionId payload = .ok event ↔
      Trimmed eventType.str ∧ occurredAt ≤ recordedAt ∧
        event = ⟨id, eventType, occurredAt, recordedAt, agentId, sessionId, none, none, payload⟩ := by
  rw [NewEvent.new, unit_bind_eq_ok, unit_bind_eq_ok, throwIf_eq_ok, throwIf_eq_ok, not_not, not_lt, Except.ok.injEq,
    @eq_comm _ event]

structure EventMetadata where
  id : EventId
  streamId : StreamId
  streamVersion : UInt64
  globalPosition : UInt64
  eventType : Text
  occurredAt : Timestamp
  recordedAt : Timestamp
  agentId : AgentId
  sessionId : SessionId
  correlationId : Option EventId
  causationId : Option EventId
deriving DecidableEq

structure StoredEvent (E : Type) where
  metadata : EventMetadata
  payload : E
deriving DecidableEq

end WeavatrixMemory.Domain
