import WeavatrixMemory.Extraction.Linker

namespace WeavatrixMemory.Extraction.Engine

open Error Identity Domain Key Model Linker

def isCharBoundary (text : Text) (index : Nat) : Bool :=
  index = 0 || index = text.str.utf8ByteSize ||
    (text.bytes[index]?).any fun byte => byte < 0x80 || 0xc0 ≤ byte

def validateSpan (span : Option TextSpan) (input : ExtractionInput) : Result Unit :=
  match span with
  | none => .ok ()
  | some span =>
      throwIf (span.stop ≤ span.start ∨ input.content.str.utf8ByteSize < span.stop ∨
          isCharBoundary input.content span.start = false ∨ isCharBoundary input.content span.stop = false)
        (.invalidValue "extraction.span" "must be a valid UTF-8 byte range inside source content")

/-- The first loop of `validate_output`, with the local identifiers so far. -/
def validateEntities (input : ExtractionInput) : List Text → List ExtractedEntity → Result (List Text)
  | entities, [] => .ok entities
  | entities, entity :: rest => do
      entity.validate
      validateSpan entity.span input
      throwIf (entity.localId ∈ entities)
        (.invalidValue "extraction.entities" "local identifiers must be unique")
      validateEntities input (entity.localId :: entities) rest

def validateRelation (input : ExtractionInput) (entities relations : List Text) (relation : ExtractedRelation) :
    Result Unit := do
  relation.validate
  validateSpan relation.span input
  throwIf (relation.localId ∈ relations)
    (.invalidValue "extraction.relations" "local identifiers must be unique")
  throwIf (relation.source ∉ entities ∨ relation.target ∉ entities)
    (.invalidValue "extraction.relation.endpoint" "must reference extracted entity local identifiers")
  throwIf (relation.validUntil.any (· ≤ relation.validFrom.getD input.occurredAt))
    (.invalidValue "extraction.relation.valid_until" "must be later than valid_from")

def validateRelations (input : ExtractionInput) (entities : List Text) :
    List Text → List ExtractedRelation → Result Unit
  | _, [] => .ok ()
  | relations, relation :: rest => do
      validateRelation input entities relations relation
      validateRelations input entities (relation.localId :: relations) rest

def validateOutput (output : ExtractionOutput) (input : ExtractionInput) : Result Unit := do
  let entities ← validateEntities input [] output.entities.items
  validateRelations input entities [] output.relations.items

def extractionError (provider : Text) (message : String) : MemoryError := .extraction provider.str message

/-- The `while` loop that looks for a free `alias.` key, for as many rounds as given. -/
def freeAlias (attributes : BTreeMap Text Text) : Nat → Nat → Result Text
  | 0, _ => .error .panicked
  | rounds + 1, index => do
      let key ← formatted ("alias." ++ toString index)
      if key ∈ attributes then freeAlias attributes rounds (index + 1) else .ok key

def hasAlias (attributes : BTreeMap Text Text) (value : Text) : Bool :=
  attributes.toList.any fun entry => startsWith entry.1 "alias." ∧ entry.2 = value

def mergeAttribute (provider key value : Text) (existing : MemoryNode) : Result MemoryNode :=
  if startsWith key "alias." then
    if hasAlias existing.attributes value then .ok existing
    else do
      let key ← freeAlias existing.attributes (existing.attributes.size + 1) existing.attributes.size
      existing.withAttribute key value
  else do
    let merged ← existing.withAttribute key value
    throwIf (existing.attributes[key]?.any (· ≠ value))
      (extractionError provider "two mentions generated conflicting entity attributes")
    .ok merged

def mergeAttributes (provider : Text) : List (Text × Text) → MemoryNode → Result MemoryNode
  | [], existing => .ok existing
  | (key, value) :: rest, existing => do
      let existing ← mergeAttribute provider key value existing
      mergeAttributes provider rest existing

def mergeNode (existing incoming : MemoryNode) (provider : Text) : Result MemoryNode := do
  throwIf (existing.kind ≠ incoming.kind ∨ existing.label ≠ incoming.label ∨
      existing.repository ≠ incoming.repository ∨ existing.branch ≠ incoming.branch)
    (extractionError provider "two mentions generated conflicting entity payloads")
  mergeAttributes provider incoming.attributes.toList existing

def withAttributes : List (Text × Text) → MemoryNode → Result MemoryNode
  | [], node => .ok node
  | (key, value) :: rest, node => do
      let node ← node.withAttribute key value
      withAttributes rest node

def withAliases : Nat → List Text → MemoryNode → Result MemoryNode
  | _, [], node => .ok node
  | index, value :: rest, node => do
      let key ← formatted ("alias." ++ toString index)
      let node ← node.withAttribute key value
      withAliases (index + 1) rest node

def extractedBy : Text := ⟨"extracted_by", by decide⟩

def extractionSource : Text := ⟨"extraction_source", by decide⟩

def buildNode (entity : ExtractedEntity) (id : EntityId) (input : ExtractionInput) (provider : Text) :
    Result MemoryNode := do
  let node ← MemoryNode.new id entity.kind entity.label
  let node ← node.withAttribute extractedBy provider
  let node ← node.withAttribute extractionSource input.source
  let node := input.repository.elim node node.inRepository
  let node := input.branch.elim node node.onBranch
  let node ← withAttributes entity.attributes.toList node
  withAliases 0 entity.aliases.items node

/-- The loop over the mentions, with the nodes created so far. -/
def createNodes (provider : Text) (input : ExtractionInput) :
    List (ExtractedEntity × LinkDecision) → BTreeMap EntityId MemoryNode → Result (BTreeMap EntityId MemoryNode)
  | [], created => .ok created
  | (entity, link) :: rest, created =>
      if link.method ≠ .created then createNodes provider input rest created
      else
        match link.entityId with
        | none => .error (extractionError provider "created link has no entity identifier")
        | some id => do
            let node ← buildNode entity id input provider
            let node ← match created[id]? with
              | some existing => mergeNode existing node provider
              | none => .ok node
            createNodes provider input rest (created.insert id node)

def nodeUpserted : Text := ⟨"node_upserted", by decide⟩

def factRecorded : Text := ⟨"fact_recorded", by decide⟩

def nodeTuple (provider : Text) (input : ExtractionInput) (fingerprint : String) (node : MemoryNode) : List String :=
  [provider.str, input.source.str, fingerprint, node.id.toString]

def nodeEvent (provider : Text) (input : ExtractionInput) (fingerprint : String) (node : MemoryNode) :
    Result (NewEvent MemoryEvent) := do
  let id ← formatted ("event:auto:node:" ++ hex (stableHash (nodeTuple provider input fingerprint node)))
  let id ← TextId.new id
  NewEvent.new id nodeUpserted input.occurredAt input.recordedAt input.agentId input.sessionId
    (.nodeUpserted node)

def nodeEvents (provider : Text) (input : ExtractionInput) (fingerprint : String) :
    List MemoryNode → Result (List (NewEvent MemoryEvent))
  | [] => .ok []
  | node :: rest => do
      let event ← nodeEvent provider input fingerprint node
      let events ← nodeEvents provider input fingerprint rest
      .ok (event :: events)

def minConfidence (a b c : Confidence) : Confidence := ⟨min (min a.basisPoints b.basisPoints) c.basisPoints⟩

def sourceKind : Text := ⟨"source", by decide⟩

def providerKind : Text := ⟨"extraction_provider", by decide⟩

def sourceEvidence (input : ExtractionInput) : Result Evidence := do
  let evidence ← Evidence.new sourceKind input.source
  let evidence := input.locator.elim evidence evidence.withLocator
  .ok (input.digest.elim evidence evidence.withDigest)

def providerEvidence (provider : Text) (span : Option TextSpan) : Result Evidence := do
  let evidence ← Evidence.new providerKind provider
  match span with
  | none => .ok evidence
  | some span => do
      let locator ← formatted ("bytes:" ++ toString span.start ++ "-" ++ toString span.stop)
      .ok (evidence.withLocator locator)

def relationTuple (provider : Text) (input : ExtractionInput) (fingerprint : String)
    (relation : ExtractedRelation) (source target : EntityId) : List String :=
  [provider.str, input.source.str, fingerprint, relation.localId.str, source.toString, relation.relation.str,
    target.toString]

def buildFact (provider : Text) (input : ExtractionInput) (fingerprint : String) (relation : ExtractedRelation)
    (sourceLink targetLink : LinkDecision) (source target : EntityId) : Result MemoryFact := do
  let id ← formatted
    ("fact:auto:" ++ hex (stableHash (relationTuple provider input fingerprint relation source target)))
  let id ← TextId.new id
  let evidence ← sourceEvidence input
  let fact ← MemoryFact.new id source relation.relation target (relation.validFrom.getD input.occurredAt)
    input.recordedAt input.agentId input.sessionId evidence
  let evidence ← providerEvidence provider relation.span
  let fact ← ((fact.observed input.occurredAt).withConfidence
    (minConfidence relation.confidence sourceLink.score targetLink.score)).withEvidence evidence
  match relation.validUntil with
  | some validUntil => fact.until validUntil
  | none => .ok fact

def factTuple (provider : Text) (input : ExtractionInput) (fingerprint : String) (fact : MemoryFact) : List String :=
  [provider.str, input.source.str, fingerprint, fact.id.toString]

def factEvent (provider : Text) (input : ExtractionInput) (fingerprint : String) (fact : MemoryFact) :
    Result (NewEvent MemoryEvent) := do
  let id ← formatted ("event:auto:fact:" ++ hex (stableHash (factTuple provider input fingerprint fact)))
  let id ← TextId.new id
  NewEvent.new id factRecorded input.occurredAt input.recordedAt input.agentId input.sessionId
    (.factRecorded fact)

def rejectedRelation (relation : ExtractedRelation) (source target : LinkDecision) : RejectedRelation where
  relationId := relation.localId
  sourceMention := relation.source
  targetMention := relation.target
  reason := "unresolved endpoints: source=" ++ source.method.debug ++ ", target=" ++ target.method.debug

/-- `&by_mention[&mention]`. -/
def mentionLink (byMention : BTreeMap Text LinkDecision) (mention : Text) : Result LinkDecision :=
  match byMention[mention]? with
  | some link => .ok link
  | none => .error .panicked

/-- The loop over the relations: the events and the rejected relations. -/
def relationEvents (provider : Text) (input : ExtractionInput) (fingerprint : String)
    (byMention : BTreeMap Text LinkDecision) :
    List ExtractedRelation → Result (List (NewEvent MemoryEvent) × List RejectedRelation)
  | [] => .ok ([], [])
  | relation :: rest => do
      let source ← mentionLink byMention relation.source
      let target ← mentionLink byMention relation.target
      match source.entityId, target.entityId with
      | some sourceId, some targetId => do
          let fact ← buildFact provider input fingerprint relation source target sourceId targetId
          let event ← factEvent provider input fingerprint fact
          let (events, rejected) ← relationEvents provider input fingerprint byMention rest
          .ok (event :: events, rejected)
      | _, _ => do
          let (events, rejected) ← relationEvents provider input fingerprint byMention rest
          .ok (events, rejectedRelation relation source target :: rejected)

def linkEntities (unicode : Unicode) (linker : EntityLinker) (input : ExtractionInput) (policy : LinkPolicy) :
    List ExtractedEntity → Result (List LinkDecision)
  | [] => .ok []
  | entity :: rest => do
      let decision ← link unicode linker entity input policy
      let links ← linkEntities unicode linker input policy rest
      .ok (decision :: links)

def mentionMap (mentions : List (ExtractedEntity × LinkDecision)) : BTreeMap Text LinkDecision :=
  mentions.foldl (fun byMention mention => byMention.insert mention.1.localId mention.2) ∅

def fingerprintOf (input : ExtractionInput) : String := hex (stableHash [input.content.str])

def buildPlan (unicode : Unicode) (policy : LinkPolicy) (provider : Text) (input : ExtractionInput)
    (linker : EntityLinker) (output : ExtractionOutput) : Result ExtractionPlan := do
  let links ← linkEntities unicode linker input policy output.entities.items
  let mentions := output.entities.items.zip links
  let created ← createNodes provider input mentions ∅
  let nodes ← nodeEvents provider input (fingerprintOf input) (valuesOf created)
  let (facts, rejected) ←
    relationEvents provider input (fingerprintOf input) (mentionMap mentions) output.relations.items
  let events ← Vec.of (nodes ++ facts)
  .ok
    { provider := provider
      source := input.source
      events := events
      links := links
      rejectedRelations := rejected }

def extracted (provider : ExtractionProvider) (input : ExtractionInput) : Result ExtractionOutput :=
  match provider.extract input with
  | .ok output => .ok output
  | .error error =>
      if error.provider = provider.name.str then .error (.extraction error.provider error.message)
      else .error (extractionError provider.name "provider error identity does not match provider name")

def planWithLinker (unicode : Unicode) (policy : LinkPolicy) (provider : ExtractionProvider)
    (input : ExtractionInput) (linker : EntityLinker) : Result ExtractionPlan := do
  input.validate
  validateText "extraction.provider" provider.name
  let output ← extracted provider input
  validateOutput output input
  buildPlan unicode policy provider.name input linker output

def plan (unicode : Unicode) (policy : LinkPolicy) (provider : ExtractionProvider) (input : ExtractionInput)
    (view : MemoryView) : Result ExtractionPlan := do
  let linker ← fromView unicode view
  planWithLinker unicode policy provider input linker

end WeavatrixMemory.Extraction.Engine
