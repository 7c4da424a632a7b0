import WeavatrixMemory.Extraction.Created

namespace WeavatrixMemory.Extraction.Provenance

open Error Identity Domain Key Model Linker Engine Linking Merging Created

variable {unicode : Unicode} {policy : LinkPolicy} {provider : ExtractionProvider} {input : ExtractionInput}
  {linker : EntityLinker} {view : MemoryView} {output : ExtractionOutput} {p : ExtractionPlan}
  {mention : ExtractedEntity} {node : MemoryNode}

theorem planWithLinker_built (houtput : provider.extract input = .ok output)
    (h : planWithLinker unicode policy provider input linker = .ok p) :
    validateOutput output input = .ok () ∧ buildPlan unicode policy provider.name input linker output = .ok p := by
  rw [planWithLinker] at h
  obtain ⟨-, h⟩ := unit_bind_eq_ok.mp h
  obtain ⟨-, h⟩ := unit_bind_eq_ok.mp h
  obtain ⟨found, hfound, h⟩ := bind_eq_ok.mp h
  rw [extracted, houtput] at hfound
  obtain rfl := Except.ok.inj hfound
  exact unit_bind_eq_ok.mp h

theorem plan_built (hlinker : fromView unicode view = .ok linker) (houtput : provider.extract input = .ok output)
    (h : plan unicode policy provider input view = .ok p) :
    validateOutput output input = .ok () ∧ buildPlan unicode policy provider.name input linker output = .ok p := by
  rw [plan, hlinker, ok_bind] at h
  exact planWithLinker_built houtput h

/-- A node that names its provider, its source and the scope of the input. -/
def NamesOrigin (provider : Text) (input : ExtractionInput) (node : MemoryNode) : Prop :=
  node.attributes[extractedBy]? = some provider ∧ node.attributes[extractionSource]? = some input.source ∧
    node.repository = input.repository ∧ node.branch = input.branch

/-- A mention that does not set the attributes of the engine to other values. -/
def Honest (provider : Text) (input : ExtractionInput) (mention : ExtractedEntity) : Prop :=
  (∀ value, mention.attributes[extractedBy]? = some value → value = provider) ∧
    ∀ value, mention.attributes[extractionSource]? = some value → value = input.source

theorem not_numberedAlias {key : Text} (h : ¬ startsWith key "alias.") (i : Nat) : key.str ≠ numberedAlias i :=
  fun heq => h (startsWith_numberedAlias heq)

theorem attribute_of_absorbs {provider key value : Text} (h : Absorbs provider input mention node)
    (hkey : ¬ startsWith key "alias.") (hvalue : baseAttribute provider input mention key = some value) :
    node.attributes[key]? = some value := by
  obtain ⟨built, hbuilt, hcarries⟩ := h
  rw [← (buildNode_spec hbuilt).2.2 key fun i _ => not_numberedAlias hkey i] at hvalue
  have hnode := hcarries key value hvalue
  rwa [Carries, if_neg hkey] at hnode

theorem baseAttribute_extractedBy (provider : Text) (input : ExtractionInput) (mention : ExtractedEntity) :
    baseAttribute provider input mention extractedBy = some (mention.attributes[extractedBy]?.getD provider) := by
  have hne : extractedBy ≠ extractionSource := by decide
  rw [baseAttribute, if_neg hne, if_pos rfl]
  cases mention.attributes[extractedBy]? <;> rfl

theorem baseAttribute_extractionSource (provider : Text) (input : ExtractionInput) (mention : ExtractedEntity) :
    baseAttribute provider input mention extractionSource =
      some (mention.attributes[extractionSource]?.getD input.source) := by
  rw [baseAttribute, if_pos rfl]
  cases mention.attributes[extractionSource]? <;> rfl

theorem provenance_of_absorbs {provider : Text} (h : Absorbs provider input mention node)
    (hlocated : node.repository = input.repository ∧ node.branch = input.branch) :
    NamesOrigin provider input node ↔ Honest provider input mention := by
  have hby := attribute_of_absorbs h (by decide) (baseAttribute_extractedBy provider input mention)
  have hsource := attribute_of_absorbs h (by decide) (baseAttribute_extractionSource provider input mention)
  rw [NamesOrigin, Honest, hby, hsource, and_iff_left hlocated, Option.some.injEq, Option.some.injEq]
  refine and_congr ?_ ?_
  · cases mention.attributes[extractedBy]? <;> simp
  · cases mention.attributes[extractionSource]? <;> simp

/-- The nodes of a plan name where they come from exactly if no mention says otherwise. -/
theorem provenance_iff (unicode : Unicode) (policy : LinkPolicy) (provider : ExtractionProvider)
    (input : ExtractionInput) (view : MemoryView) (linker : EntityLinker) (output : ExtractionOutput)
    (p : ExtractionPlan) (hlinker : fromView unicode view = .ok linker) (houtput : provider.extract input = .ok output)
    (hplan : plan unicode policy provider input view = .ok p) :
    (∀ node, Upserts p node → NamesOrigin provider.name input node) ↔
      ∀ mention ∈ output.entities.items, ∀ id, TurnedInto unicode linker input policy mention id →
        Honest provider.name input mention := by
  have hnodes := buildPlan_nodes (plan_built hlinker houtput hplan).2
  constructor
  · intro h mention hmem id hturned
    obtain ⟨node, hupserts, -, habsorbs⟩ := hnodes.absorbed mention hmem id hturned
    exact (provenance_of_absorbs habsorbs (hnodes.located node hupserts)).mp (h node hupserts)
  · intro h node hupserts
    obtain ⟨mention, hmem, hturned⟩ := hnodes.origin node hupserts
    obtain ⟨other, hother, hid, habsorbs⟩ := hnodes.absorbed mention hmem node.id hturned
    obtain rfl := hnodes.distinct other node hother hupserts hid
    exact (provenance_of_absorbs habsorbs (hnodes.located other hupserts)).mpr (h mention hmem _ hturned)

def emptyView : MemoryView := ⟨[], []⟩

def testProvider : Text := ⟨"test-provider", by decide⟩

def answering (entities : Vec ExtractedEntity) : ExtractionProvider where
  name := testProvider
  extract _ := .ok ⟨entities, ⟨[], by decide⟩⟩

def honest : ExtractionProvider := answering ⟨[taskMention], by decide⟩

theorem provenance_iff_honest : ∃ linker p, fromView .ascii emptyView = .ok linker ∧
    plan .ascii .default honest message emptyView = .ok p ∧
    ((∀ node, Upserts p node → NamesOrigin honest.name message node) ↔
      ∀ mention ∈ [taskMention], ∀ id, TurnedInto .ascii linker message .default mention id →
        Honest honest.name message mention) := by
  obtain ⟨linker, hlinker⟩ : ∃ linker, fromView .ascii emptyView = .ok linker := exists_ok_of_isOk (by decide +kernel)
  obtain ⟨p, hplan⟩ : ∃ p, plan .ascii .default honest message emptyView = .ok p :=
    exists_ok_of_isOk (by decide +kernel)
  exact ⟨linker, p, hlinker, hplan, provenance_iff .ascii .default honest message
    emptyView linker ⟨⟨[taskMention], by decide⟩, ⟨[], by decide⟩⟩ p hlinker rfl hplan⟩

def forgedMention : ExtractedEntity :=
  { taskMention with attributes := (∅ : BTreeMap Text Text).insert extractedBy ⟨"reviewer", by decide⟩ }

def forger : ExtractionProvider := answering ⟨[forgedMention], by decide⟩

def namesProvider (provider : Text) : MemoryEvent → Bool
  | .nodeUpserted node => node.attributes[extractedBy]? = some provider
  | _ => true

/-- An attribute of a mention replaces the provider that the engine had named. -/
theorem provenance_forged : ∃ p,
    plan .ascii .default forger message emptyView = .ok p ∧
      ∃ node, Upserts p node ∧ ¬ NamesOrigin forger.name message node := by
  have hany : (plan .ascii .default forger message emptyView).map
      (fun p => p.events.items.all fun event => namesProvider forger.name event.payload) =
        .ok false := by decide +kernel
  obtain ⟨p, hplan, hforged⟩ := map_eq_ok.mp hany
  obtain ⟨event, hevent, hnot⟩ := List.all_eq_false.mp hforged
  refine ⟨p, hplan, ?_⟩
  cases hpayload : event.payload with
  | nodeUpserted node =>
      refine ⟨node, ⟨event, hevent, hpayload⟩, fun h => hnot ?_⟩
      rw [hpayload]
      exact decide_eq_true h.1
  | factRecorded fact => exact absurd (by rw [hpayload]; rfl) hnot
  | factRetracted => exact absurd (by rw [hpayload]; rfl) hnot

end WeavatrixMemory.Extraction.Provenance
