import WeavatrixMemory.Domain

namespace WeavatrixMemory.Extraction.Model

open Error Identity Domain

structure TextSpan where
  start : Nat
  stop : Nat
deriving DecidableEq

structure ExtractionInput where
  source : Text
  content : Text
  occurredAt : Timestamp
  recordedAt : Timestamp
  agentId : AgentId
  sessionId : SessionId
  repository : Option Text
  branch : Option Text
  locator : Option Text
  digest : Option Text
deriving DecidableEq

def ExtractionInput.validate (input : ExtractionInput) : Result Unit := do
  validateText "extraction.source" input.source
  throwIf (trim input.content.str = "")
    (.invalidValue "extraction.content" "must contain non-whitespace text")
  throwIf (input.recordedAt < input.occurredAt)
    (.invalidValue "extraction.occurred_at" "must not be later than recorded_at")
  validateOptionalText "extraction.repository" input.repository
  validateOptionalText "extraction.branch" input.branch
  validateOptionalText "extraction.locator" input.locator
  validateOptionalText "extraction.digest" input.digest

structure EntityHint where
  entityId : EntityId
  confidence : Confidence
  source : Text
deriving DecidableEq

structure ExtractedEntity where
  localId : Text
  kind : Text
  label : Text
  confidence : Confidence
  stableId : Option EntityId
  aliases : Vec Text
  attributes : BTreeMap Text Text
  hints : Vec EntityHint
  span : Option TextSpan
deriving DecidableEq

/-- `validate_text` on the texts of a list: the first failure wins. -/
def validateTexts (field : String) : List Text → Result Unit
  | [] => .ok ()
  | value :: rest => do
      validateText field value
      validateTexts field rest

def startsWith (key : Text) (start : String) : Prop := start.toList <+: key.str.toList

instance decidableStartsWith (key : Text) (start : String) : Decidable (startsWith key start) :=
  inferInstanceAs (Decidable (_ <+: _))

def validateExternalId (field : String) (key value : Text) : Result Unit :=
  if startsWith key "external_id." then validateText field value else .ok ()

def validateExternalIds (field : String) : List (Text × Text) → Result Unit
  | [] => .ok ()
  | (key, value) :: rest => do
      validateExternalId field key value
      validateExternalIds field rest

def ExtractedEntity.validate (entity : ExtractedEntity) : Result Unit := do
  validateText "extracted_entity.local_id" entity.localId
  validateText "extracted_entity.kind" entity.kind
  validateText "extracted_entity.label" entity.label
  validateTexts "extracted_entity.alias" entity.aliases.items
  validateTexts "extracted_entity.attribute.key" entity.attributes.keys
  validateExternalIds "extracted_entity.external_id" entity.attributes.toList
  validateTexts "entity_hint.source" (entity.hints.items.map (·.source))

structure ExtractedRelation where
  localId : Text
  source : Text
  relation : Text
  target : Text
  confidence : Confidence
  validFrom : Option Timestamp
  validUntil : Option Timestamp
  span : Option TextSpan
deriving DecidableEq

def ExtractedRelation.validate (relation : ExtractedRelation) : Result Unit := do
  validateText "extracted_relation.local_id" relation.localId
  validateText "extracted_relation.source" relation.source
  validateText "extracted_relation.relation" relation.relation
  validateText "extracted_relation.target" relation.target

structure ExtractionOutput where
  entities : Vec ExtractedEntity
  relations : Vec ExtractedRelation
deriving DecidableEq

structure LinkPolicy where
  minimumScore : UInt16
  minimumMargin : UInt16
  createUnmatched : Bool
deriving DecidableEq

def LinkPolicy.default : LinkPolicy := ⟨8000, 500, true⟩

inductive LinkMethod
  | stableId | externalId | providerHint | scopedLabel | label | «alias» | created | ambiguous | unresolved
deriving DecidableEq

/-- The derived `Debug`. -/
def LinkMethod.debug : LinkMethod → String
  | .stableId => "StableId"
  | .externalId => "ExternalId"
  | .providerHint => "ProviderHint"
  | .scopedLabel => "ScopedLabel"
  | .label => "Label"
  | .alias => "Alias"
  | .created => "Created"
  | .ambiguous => "Ambiguous"
  | .unresolved => "Unresolved"

structure LinkCandidate where
  entityId : EntityId
  score : Confidence
  method : LinkMethod
deriving DecidableEq

structure LinkDecision where
  mentionId : Text
  entityId : Option EntityId
  score : Confidence
  method : LinkMethod
  candidates : List LinkCandidate
deriving DecidableEq

structure RejectedRelation where
  relationId : Text
  sourceMention : Text
  targetMention : Text
  reason : String
deriving DecidableEq

structure ExtractionPlan where
  provider : Text
  source : Text
  events : Vec (NewEvent MemoryEvent)
  links : List LinkDecision
  rejectedRelations : List RejectedRelation
deriving DecidableEq

structure ExtractionError where
  provider : String
  message : String
deriving DecidableEq

structure ExtractionProvider where
  name : Text
  extract : ExtractionInput → Except ExtractionError ExtractionOutput

theorem validateTexts_eq_ok {field : String} {values : List Text} :
    validateTexts field values = .ok () ↔ ∀ v ∈ values, Trimmed v.str := by
  induction values with
  | nil => simp [validateTexts]
  | cons v values ih => rw [validateTexts, unit_bind_eq_ok, validateText_eq_ok, ih, List.forall_mem_cons]

theorem validateExternalIds_eq_ok {field : String} {attributes : List (Text × Text)} :
    validateExternalIds field attributes = .ok () ↔
      ∀ e ∈ attributes, startsWith e.1 "external_id." → Trimmed e.2.str := by
  induction attributes with
  | nil => simp [validateExternalIds]
  | cons e attributes ih =>
      rw [validateExternalIds, unit_bind_eq_ok, ih, List.forall_mem_cons, validateExternalId]
      by_cases h : startsWith e.1 "external_id." <;> simp [h, validateText_eq_ok]

end WeavatrixMemory.Extraction.Model
