import Mathlib.Data.List.Sort
import Mathlib.Logic.Function.Basic
import WeavatrixMemory.Extraction.Key
import WeavatrixMemory.Extraction.Model

namespace WeavatrixMemory.Extraction.Linker

open Error Identity Domain Key Model

structure CatalogEntity where
  id : EntityId
  kind : String
  repository : Option Text
  branch : Option Text
deriving DecidableEq

inductive IndexBucket
  | one (index : Nat)
  | many (indexes : List Nat)
deriving DecidableEq

/-- The linker. Its hash maps are never iterated, so they are functions. -/
structure EntityLinker where
  nodes : List CatalogEntity
  byId : EntityId → Option Nat
  byLabel : String × String → Option IndexBucket
  byAlias : String × String → Option IndexBucket
  byExternalId : String × Text × String → Option IndexBucket

def EntityLinker.empty : EntityLinker := ⟨[], fun _ => none, fun _ => none, fun _ => none, fun _ => none⟩

def exactKey (unicode : Unicode) (value : Text) : String := unicode.strToLowercase (trim value.str)

def IndexBucket.push (value : Nat) : Option IndexBucket → IndexBucket
  | none => .one value
  | some (.one first) => .many [first, value]
  | some (.many values) => .many (values ++ [value])

def insertIndex {κ : Type} [DecidableEq κ] (index : κ → Option IndexBucket) (key : κ) (value : Nat) :
    κ → Option IndexBucket :=
  Function.update index key (some (IndexBucket.push value (index key)))

def isAliasKey (key : Text) : Prop := key.str = "alias" ∨ startsWith key "alias."

instance decidableIsAliasKey (key : Text) : Decidable (isAliasKey key) := inferInstanceAs (Decidable (_ ∨ _))

def addAttribute (unicode : Unicode) (kind : String) (index : Nat) (key value : Text) (linker : EntityLinker) :
    Result EntityLinker :=
  if isAliasKey key then do
    validateText "entity_linker.alias" value
    .ok { linker with byAlias := insertIndex linker.byAlias (kind, normalized unicode value.str) index }
  else if startsWith key "external_id." then do
    validateText "entity_linker.external_id" value
    .ok { linker with
      byExternalId := insertIndex linker.byExternalId (kind, key, exactKey unicode value) index }
  else .ok linker

def addAttributes (unicode : Unicode) (kind : String) (index : Nat) :
    List (Text × Text) → EntityLinker → Result EntityLinker
  | [], linker => .ok linker
  | (key, value) :: rest, linker => do
      let linker ← addAttribute unicode kind index key value linker
      addAttributes unicode kind index rest linker

def addNode (unicode : Unicode) (index : Nat) (node : MemoryNode) (linker : EntityLinker) :
    Result EntityLinker := do
  node.validate
  throwIf ((linker.byId node.id).isSome)
    (.invalidValue "entity_linker.catalog" "entity identifiers must be unique")
  let kind := normalized unicode node.kind.str
  addAttributes unicode kind index node.attributes.toList
    { linker with
      byId := Function.update linker.byId node.id (some index)
      nodes := linker.nodes ++ [⟨node.id, kind, node.repository, node.branch⟩]
      byLabel := insertIndex linker.byLabel (kind, normalized unicode node.label.str) index }

def addNodes (unicode : Unicode) : Nat → List MemoryNode → EntityLinker → Result EntityLinker
  | _, [], linker => .ok linker
  | index, node :: rest, linker => do
      let linker ← addNode unicode index node linker
      addNodes unicode (index + 1) rest linker

def fromView (unicode : Unicode) (view : MemoryView) : Result EntityLinker :=
  addNodes unicode 0 view.nodes .empty

def decision (mention : ExtractedEntity) (entityId : Option EntityId) (score : Confidence) (method : LinkMethod)
    (candidates : List LinkCandidate) : LinkDecision :=
  ⟨mention.localId, entityId, score, method, candidates⟩

def generatedId (unicode : Unicode) (mention : ExtractedEntity) (input : ExtractionInput) : Result EntityId := do
  let label := normalized unicode mention.label.str
  let hash := stableHash [(input.repository.map Text.str).getD "", (input.branch.map Text.str).getD "",
    normalized unicode mention.kind.str, label]
  let id ← formatted ("auto:" ++ slug unicode mention.kind.str ++ ":" ++ hex hash)
  TextId.new id

/-- One of the two scopes: what the score gains or loses, and whether the scopes agree. -/
def scopeStep (wanted found : Option Text) (same other missing : Int) : Int × Bool :=
  match wanted with
  | none => (0, false)
  | some wanted =>
      match found with
      | some candidate => if candidate = wanted then (same, true) else (other, false)
      | none => (missing, false)

def scopeScore (base : UInt16) (node : CatalogEntity) (input : ExtractionInput) : UInt16 × Bool :=
  let (repository, inRepository) := scopeStep input.repository node.repository 400 (-2000) (-300)
  let (branch, onBranch) := scopeStep input.branch node.branch 200 (-700) (-100)
  (UInt16.ofNat (max 0 (min (base.toNat + repository + branch) 10000)).toNat, inRepository || onBranch)

def addCandidate (linker : EntityLinker) (mention : ExtractedEntity) (input : ExtractionInput)
    (baseScore : UInt16) (method : LinkMethod) (index : Nat) (candidates : BTreeMap EntityId LinkCandidate) :
    Result (BTreeMap EntityId LinkCandidate) := do
  let node ← getAt linker.nodes index
  let (score, inScope) := scopeScore baseScore node input
  let score := min score mention.confidence.basisPoints
  let method := if method = .label ∧ inScope then .scopedLabel else method
  let score ← Confidence.fromBasisPoints score
  let candidate : LinkCandidate := ⟨node.id, score, method⟩
  match candidates[node.id]? with
  | some existing =>
      if candidate.score.basisPoints ≤ existing.score.basisPoints then .ok candidates
      else .ok (candidates.insert node.id candidate)
  | none => .ok (candidates.insert node.id candidate)

def addEach (linker : EntityLinker) (mention : ExtractedEntity) (input : ExtractionInput) (baseScore : UInt16)
    (method : LinkMethod) :
    List Nat → BTreeMap EntityId LinkCandidate → Result (BTreeMap EntityId LinkCandidate)
  | [], candidates => .ok candidates
  | index :: rest, candidates => do
      let candidates ← addCandidate linker mention input baseScore method index candidates
      addEach linker mention input baseScore method rest candidates

def addIndexMatches (linker : EntityLinker) (indexes : Option IndexBucket) (mention : ExtractedEntity)
    (input : ExtractionInput) (baseScore : UInt16) (method : LinkMethod)
    (candidates : BTreeMap EntityId LinkCandidate) : Result (BTreeMap EntityId LinkCandidate) :=
  match indexes with
  | none => .ok candidates
  | some (.one index) => addCandidate linker mention input baseScore method index candidates
  | some (.many indexes) => addEach linker mention input baseScore method indexes candidates

def addAliases (unicode : Unicode) (linker : EntityLinker) (mention : ExtractedEntity) (input : ExtractionInput)
    (kind : String) :
    List Text → BTreeMap EntityId LinkCandidate → Result (BTreeMap EntityId LinkCandidate)
  | [], candidates => .ok candidates
  | value :: rest, candidates => do
      let candidates ← addIndexMatches linker (linker.byAlias (kind, normalized unicode value.str)) mention
        input 8500 .alias candidates
      addAliases unicode linker mention input kind rest candidates

def addExternalId (unicode : Unicode) (linker : EntityLinker) (mention : ExtractedEntity)
    (input : ExtractionInput) (kind : String) (key value : Text) (candidates : BTreeMap EntityId LinkCandidate) :
    Result (BTreeMap EntityId LinkCandidate) :=
  if startsWith key "external_id." then
    addIndexMatches linker (linker.byExternalId (kind, key, exactKey unicode value)) mention input 9700
      .externalId candidates
  else .ok candidates

def addExternalIds (unicode : Unicode) (linker : EntityLinker) (mention : ExtractedEntity)
    (input : ExtractionInput) (kind : String) :
    List (Text × Text) → BTreeMap EntityId LinkCandidate → Result (BTreeMap EntityId LinkCandidate)
  | [], candidates => .ok candidates
  | (key, value) :: rest, candidates => do
      let candidates ← addExternalId unicode linker mention input kind key value candidates
      addExternalIds unicode linker mention input kind rest candidates

def addHint (linker : EntityLinker) (mention : ExtractedEntity) (input : ExtractionInput) (kind : String)
    (hint : EntityHint) (candidates : BTreeMap EntityId LinkCandidate) :
    Result (BTreeMap EntityId LinkCandidate) :=
  match linker.byId hint.entityId with
  | none => .ok candidates
  | some index => do
      let node ← getAt linker.nodes index
      if node.kind = kind then
        addCandidate linker mention input hint.confidence.basisPoints .providerHint index candidates
      else .ok candidates

def addHints (linker : EntityLinker) (mention : ExtractedEntity) (input : ExtractionInput) (kind : String) :
    List EntityHint → BTreeMap EntityId LinkCandidate → Result (BTreeMap EntityId LinkCandidate)
  | [], candidates => .ok candidates
  | hint :: rest, candidates => do
      let candidates ← addHint linker mention input kind hint candidates
      addHints linker mention input kind rest candidates

/-- The order of `sort_by`: the higher score first, then the smaller identifier. -/
def sortsBefore (a b : LinkCandidate) : Prop :=
  ((compare b.score.basisPoints a.score.basisPoints).then (compare a.entityId b.entityId)).isLE = true

instance decidableSortsBefore : DecidableRel sortsBefore := fun _ _ => inferInstanceAs (Decidable (_ = true))

def collectCandidates (unicode : Unicode) (linker : EntityLinker) (mention : ExtractedEntity)
    (input : ExtractionInput) : Result (List LinkCandidate) := do
  let kind := normalized unicode mention.kind.str
  let label := normalized unicode mention.label.str
  let candidates ← addIndexMatches linker (linker.byLabel (kind, label)) mention input 9000 .label ∅
  let candidates ← addIndexMatches linker (linker.byAlias (kind, label)) mention input 8500 .alias candidates
  let candidates ← addAliases unicode linker mention input kind mention.aliases.items candidates
  let candidates ← addExternalIds unicode linker mention input kind mention.attributes.toList candidates
  let candidates ← addHints linker mention input kind mention.hints.items candidates
  .ok ((valuesOf candidates).insertionSort sortsBefore)

def linkStableId (unicode : Unicode) (linker : EntityLinker) (mention : ExtractedEntity) (stableId : EntityId) :
    Result LinkDecision :=
  match linker.byId stableId with
  | some index => do
      let node ← getAt linker.nodes index
      throwIf (node.kind ≠ normalized unicode mention.kind.str)
        (.invalidValue "extracted_entity.stable_id" "existing entity kind does not match extracted kind")
      .ok (decision mention (some stableId) mention.confidence .stableId
        [⟨stableId, mention.confidence, .stableId⟩])
  | none => .ok (decision mention (some stableId) mention.confidence .created [])

def unmatched (unicode : Unicode) (linker : EntityLinker) (mention : ExtractedEntity) (input : ExtractionInput)
    (policy : LinkPolicy) (candidates : List LinkCandidate) : Result LinkDecision := do
  if ¬ policy.createUnmatched then
    let score ← Confidence.fromBasisPoints 0
    .ok (decision mention none score .unresolved candidates)
  else
    let id ← generatedId unicode mention input
    throwIf ((linker.byId id).isSome)
      (.extraction "entity-linker" ("generated entity identifier collides with " ++ id.toString))
    .ok (decision mention (some id) mention.confidence .created candidates)

def resolveCandidates (unicode : Unicode) (linker : EntityLinker) (mention : ExtractedEntity)
    (input : ExtractionInput) (policy : LinkPolicy) (candidates : List LinkCandidate) : Result LinkDecision :=
  match candidates with
  | [] => unmatched unicode linker mention input policy candidates
  | best :: others =>
      if best.score.basisPoints < policy.minimumScore then
        unmatched unicode linker mention input policy candidates
      else if others.head?.any fun second =>
          best.score.basisPoints.toNat - second.score.basisPoints.toNat < policy.minimumMargin.toNat then
        .ok (decision mention none best.score .ambiguous candidates)
      else .ok (decision mention (some best.entityId) best.score best.method candidates)

def link (unicode : Unicode) (linker : EntityLinker) (mention : ExtractedEntity) (input : ExtractionInput)
    (policy : LinkPolicy) : Result LinkDecision := do
  throwIf (10000 < policy.minimumScore ∨ 10000 < policy.minimumMargin)
    (.invalidValue "link_policy" "scores must be between 0 and 10,000 basis points")
  match mention.stableId with
  | some stableId => linkStableId unicode linker mention stableId
  | none => do
      let candidates ← collectCandidates unicode linker mention input
      resolveCandidates unicode linker mention input policy candidates

end WeavatrixMemory.Extraction.Linker
