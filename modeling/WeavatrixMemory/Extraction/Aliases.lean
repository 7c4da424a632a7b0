import WeavatrixMemory.Extraction.Provenance

namespace WeavatrixMemory.Extraction.Aliases

open Error Identity Domain Key Model Linker Engine Linking Merging Created Provenance

variable {provider : Text} {input : ExtractionInput} {mention : ExtractedEntity} {id : EntityId}
  {node built : MemoryNode}

def Supplies (mention : ExtractedEntity) (value : Text) : Prop :=
  value ∈ mention.aliases.items ∨ ∃ key : Text, startsWith key "alias." ∧ mention.attributes[key]? = some value

/-- Every alias of a mention is among those of its node, none replaces another, and the search for a free number
ends. -/
structure KeepsAliases (unicode : Unicode) (policy : LinkPolicy) (provider : Text) (input : ExtractionInput)
    (linker : EntityLinker) (output : ExtractionOutput) (p : ExtractionPlan) : Prop where
  supplied : ∀ node, Upserts p node → ∀ mention ∈ output.entities.items,
    TurnedInto unicode linker input policy mention node.id → ∀ value, Supplies mention value →
      ∃ key : Text, startsWith key "alias." ∧ node.attributes[key]? = some value
  built : ∀ mention ∈ output.entities.items, ∀ id, TurnedInto unicode linker input policy mention id →
    ∀ node, buildNode mention id input provider = .ok node → ∀ key value : Text, startsWith key "alias." →
      mention.attributes[key]? = some value → node.attributes[key]? = some value
  merged : ∀ existing incoming next, mergeNode existing incoming provider = .ok next →
    ∀ key value : Text, startsWith key "alias." → existing.attributes[key]? = some value →
      next.attributes[key]? = some value
  ends : ∀ node : MemoryNode,
    ∃ key, freeAlias node.attributes (node.attributes.size + 1) node.attributes.size = .ok key

/-- No attribute of a mention has the number of another one of its aliases. -/
def Unnumbered (mention : ExtractedEntity) : Prop :=
  ∀ (i : Nat) (value : Text), mention.aliases.items[i]? = some value → ∀ key other : Text, key.str = numberedAlias i →
    mention.attributes[key]? = some other → other = value

theorem built_alias (h : buildNode mention id input provider = .ok built) {i : Nat} {key value : Text}
    (hi : mention.aliases.items[i]? = some value) (hkey : key.str = numberedAlias i) :
    built.attributes[key]? = some value := by
  obtain ⟨other, hother, hvalue⟩ := (buildNode_spec h).2.1 i value hi
  rwa [Text.ext (hkey.trans hother.symm)]

theorem built_attribute (h : buildNode mention id input provider = .ok built) (hfree : Unnumbered mention)
    {key value : Text} (hvalue : mention.attributes[key]? = some value) : built.attributes[key]? = some value := by
  by_cases hnumber : ∃ i < mention.aliases.items.length, key.str = numberedAlias i
  · obtain ⟨i, hi, hkey⟩ := hnumber
    have halias := List.getElem?_eq_getElem hi
    rw [hfree i _ halias key value hkey hvalue]
    exact built_alias h halias hkey
  · rw [(buildNode_spec h).2.2 key fun i hi hkey => hnumber ⟨i, hi, hkey⟩, baseAttribute, hvalue]

theorem alias_of_absorbs (h : Absorbs provider input mention node) (hfree : Unnumbered mention) {value : Text}
    (hvalue : Supplies mention value) : ∃ key : Text, startsWith key "alias." ∧ node.attributes[key]? = some value := by
  obtain ⟨built, hbuilt, hcarries⟩ := h
  obtain ⟨key, hkey, hfound⟩ : ∃ key : Text, startsWith key "alias." ∧ built.attributes[key]? = some value := by
    obtain hmem | ⟨key, hkey, hattribute⟩ := hvalue
    · obtain ⟨i, hi⟩ := List.mem_iff_getElem?.mp hmem
      obtain ⟨key, hkey, hfound⟩ := (buildNode_spec hbuilt).2.1 i value hi
      exact ⟨key, startsWith_numberedAlias hkey, hfound⟩
    · exact ⟨key, hkey, built_attribute hbuilt hfree hattribute⟩
  have hnode := hcarries key value hfound
  rwa [Carries, if_pos hkey] at hnode

/-- The aliases are kept exactly if no attribute of a new mention is numbered like one of them. -/
theorem aliases_kept_iff (unicode : Unicode) (policy : LinkPolicy) (provider : ExtractionProvider)
    (input : ExtractionInput) (view : MemoryView) (linker : EntityLinker) (output : ExtractionOutput)
    (p : ExtractionPlan) (hlinker : fromView unicode view = .ok linker) (houtput : provider.extract input = .ok output)
    (hplan : plan unicode policy provider input view = .ok p) :
    KeepsAliases unicode policy provider.name input linker output p ↔
      ∀ mention ∈ output.entities.items, ∀ id, TurnedInto unicode linker input policy mention id →
        Unnumbered mention := by
  have hnodes := buildPlan_nodes (plan_built hlinker houtput hplan).2
  constructor
  · intro h mention hmem id hturned i value hi key other hkey hother
    obtain ⟨node, -, rfl, built, hbuilt, -⟩ := hnodes.absorbed mention hmem id hturned
    have hkept := h.built mention hmem node.id hturned built hbuilt key other (startsWith_numberedAlias hkey) hother
    exact Option.some.inj (hkept.symm.trans (built_alias hbuilt hi hkey))
  · intro h
    refine ⟨fun node hupserts mention hmem hturned value hvalue => ?_, fun mention hmem id hturned node hbuilt key value
      _ hvalue => built_attribute hbuilt (h mention hmem id hturned) hvalue, fun existing incoming next hmerged key
      value _ hvalue => (mergeNode_spec hmerged).1.attributes key value hvalue, freeAlias_ends⟩
    obtain ⟨other, hother, hid, habsorbs⟩ := hnodes.absorbed mention hmem node.id hturned
    obtain rfl := hnodes.distinct other node hother hupserts hid
    exact alias_of_absorbs habsorbs (h mention hmem _ hturned) hvalue

def aliased (key : Text) : ExtractedEntity :=
  { taskMention with
    aliases := ⟨[⟨"Chore", by decide⟩], by decide⟩
    attributes := (∅ : BTreeMap Text Text).insert key ⟨"Duty", by decide⟩ }

def keeper : ExtractionProvider := answering ⟨[aliased ⟨"alias.1", by decide⟩], by decide⟩

theorem aliases_kept_iff_renumbered : ∃ linker p, fromView .ascii emptyView = .ok linker ∧
    plan .ascii .default keeper message emptyView = .ok p ∧
    (KeepsAliases .ascii .default keeper.name message linker
        ⟨⟨[aliased ⟨"alias.1", by decide⟩], by decide⟩, ⟨[], by decide⟩⟩ p ↔
      ∀ mention ∈ [aliased ⟨"alias.1", by decide⟩], ∀ id, TurnedInto .ascii linker message .default mention id →
        Unnumbered mention) := by
  obtain ⟨linker, hlinker⟩ : ∃ linker, fromView .ascii emptyView = .ok linker := exists_ok_of_isOk (by decide +kernel)
  obtain ⟨p, hplan⟩ : ∃ p, plan .ascii .default keeper message emptyView = .ok p :=
    exists_ok_of_isOk (by decide +kernel)
  exact ⟨linker, p, hlinker, hplan, aliases_kept_iff .ascii .default keeper message emptyView linker
    ⟨⟨[aliased ⟨"alias.1", by decide⟩], by decide⟩, ⟨[], by decide⟩⟩ p hlinker rfl hplan⟩

def overwriter : ExtractionProvider := answering ⟨[aliased ⟨"alias.0", by decide⟩], by decide⟩

def keepsDuty : MemoryEvent → Bool
  | .nodeUpserted node => hasAlias node.attributes ⟨"Duty", by decide⟩
  | _ => true

/-- The first alias of the list takes the place of the alias under the same number. -/
theorem alias_overwritten : ∃ linker p, fromView .ascii emptyView = .ok linker ∧
    plan .ascii .default overwriter message emptyView = .ok p ∧
    ¬ KeepsAliases .ascii .default overwriter.name message linker
      ⟨⟨[aliased ⟨"alias.0", by decide⟩], by decide⟩, ⟨[], by decide⟩⟩ p := by
  obtain ⟨linker, hlinker⟩ : ∃ linker, fromView .ascii emptyView = .ok linker := exists_ok_of_isOk (by decide +kernel)
  have hany : (plan .ascii .default overwriter message emptyView).map
      (fun p => p.events.items.all fun event => keepsDuty event.payload) = .ok false := by decide +kernel
  obtain ⟨p, hplan, hlost⟩ := map_eq_ok.mp hany
  refine ⟨linker, p, hlinker, hplan, fun h => ?_⟩
  obtain ⟨event, hevent, hnot⟩ := List.all_eq_false.mp hlost
  cases hpayload : event.payload with
  | nodeUpserted node =>
      have hupserts : Upserts p node := ⟨event, hevent, hpayload⟩
      obtain ⟨mention, hmem, hturned⟩ := (buildPlan_nodes (plan_built hlinker rfl hplan).2).origin node hupserts
      obtain rfl := List.mem_singleton.mp hmem
      refine hnot ?_
      rw [hpayload]
      refine hasAlias_iff.mpr (h.supplied node hupserts _ hmem hturned _ (.inr ⟨⟨"alias.0", by decide⟩, ?_, ?_⟩))
      · decide
      · decide
  | factRecorded fact => exact absurd (by rw [hpayload]; rfl) hnot
  | factRetracted => exact absurd (by rw [hpayload]; rfl) hnot

end WeavatrixMemory.Extraction.Aliases
