import WeavatrixMemory.Extraction.Provenance
import WeavatrixMemory.Extraction.Validity

namespace WeavatrixMemory.Extraction.Tracing

open Error Identity Domain Key Model Linker Engine Merging Created Validity Provenance
open Catalog (CatalogValid Catalogable catalogValid_iff not_isAliasKey_of_external)

variable {unicode : Unicode} {policy : LinkPolicy} {provider key value : Text} {input : ExtractionInput}
  {linker : EntityLinker} {output : ExtractionOutput} {p : ExtractionPlan} {mention : ExtractedEntity}
  {node existing incoming merged built : MemoryNode} {id : EntityId}

/-- The value is in the attributes under the key, or under another one if both are numbered alias keys. -/
def Holds (attributes : BTreeMap Text Text) (key value : Text) : Prop :=
  attributes[key]? = some value ∨
    startsWith key "alias." ∧ ∃ other : Text, startsWith other "alias." ∧ attributes[other]? = some value

theorem mergeAttribute_traced (h : mergeAttribute provider key value existing = .ok merged) {other found : Text}
    (hfound : merged.attributes[other]? = some found) : existing.attributes[other]? = some found ∨
      found = value ∧ (other = key ∨ startsWith other "alias." ∧ startsWith key "alias.") := by
  have hwritten {written : MemoryNode} {name : Text} (hw : existing.withAttribute name value = .ok written)
      (hf : written.attributes[other]? = some found) :
      existing.attributes[other]? = some found ∨ found = value ∧ other = name := by
    rw [(MemoryNode.withAttribute_eq_ok.mp hw).1, getElem?_insert] at hf
    split at hf
    next heq => exact .inr ⟨(Option.some.inj hf).symm, heq⟩
    next => exact .inl hf
  rw [mergeAttribute] at h
  split at h
  next halias =>
    split at h
    next =>
      obtain rfl := Except.ok.inj h
      exact .inl hfound
    next =>
      obtain ⟨name, hname, h⟩ := bind_eq_ok.mp h
      obtain ⟨-, i, hi⟩ := freeAlias_spec hname
      refine (hwritten h hfound).imp_right ?_
      rintro ⟨rfl, rfl⟩
      exact ⟨rfl, .inr ⟨startsWith_numberedAlias hi, halias⟩⟩
  next =>
    obtain ⟨written, hw, h⟩ := bind_eq_ok.mp h
    obtain ⟨-, h⟩ := unit_bind_eq_ok.mp h
    obtain rfl := Except.ok.inj h
    refine (hwritten hw hfound).imp_right ?_
    rintro ⟨rfl, rfl⟩
    exact ⟨rfl, .inl rfl⟩

theorem mergeAttributes_traced {entries : List (Text × Text)}
    (h : mergeAttributes provider entries existing = .ok merged)
    {other found : Text} (hfound : merged.attributes[other]? = some found) : existing.attributes[other]? = some found ∨
      ∃ entry ∈ entries, found = entry.2 ∧
        (other = entry.1 ∨ startsWith other "alias." ∧ startsWith entry.1 "alias.") := by
  induction entries generalizing existing with
  | nil =>
      obtain rfl := Except.ok.inj h
      exact .inl hfound
  | cons entry rest ih =>
      rw [mergeAttributes] at h
      obtain ⟨next, hnext, h⟩ := bind_eq_ok.mp h
      obtain hin | ⟨later, hlater, htraced⟩ := ih h
      · refine (mergeAttribute_traced hnext hin).imp_right fun htraced => ?_
        exact ⟨entry, List.mem_cons_self, htraced⟩
      · exact .inr ⟨later, List.mem_cons_of_mem _ hlater, htraced⟩

theorem mergeNode_traced (h : mergeNode existing incoming provider = .ok merged) {other found : Text}
    (hfound : merged.attributes[other]? = some found) :
    existing.attributes[other]? = some found ∨ Holds incoming.attributes other found := by
  rw [mergeNode] at h
  obtain ⟨-, h⟩ := unit_bind_eq_ok.mp h
  refine (mergeAttributes_traced h hfound).imp_right ?_
  rintro ⟨⟨key, value⟩, hentry, rfl, hkey⟩
  rw [Std.ExtTreeMap.mem_toList_iff_getElem?_eq_some] at hentry
  obtain rfl | ⟨hother, hkey⟩ := hkey
  · exact .inl hentry
  · exact .inr ⟨hother, key, hkey, hentry⟩

def TracedTo (provider : Text) (input : ExtractionInput) (mentions : List (ExtractedEntity × LinkDecision))
    (id : EntityId) (key value : Text) : Prop :=
  ∃ mention ∈ mentions, mention.2.method = .created ∧ mention.2.entityId = some id ∧
    ∃ built, buildNode mention.1 id input provider = .ok built ∧ Holds built.attributes key value

theorem TracedTo.mono {mentions others : List (ExtractedEntity × LinkDecision)} (hsub : mentions ⊆ others)
    (h : TracedTo provider input mentions id key value) : TracedTo provider input others id key value := by
  obtain ⟨mention, hm, h⟩ := h
  exact ⟨mention, hsub hm, h⟩

theorem held_traced {before : BTreeMap EntityId MemoryNode} (h : Held provider before id built node)
    {other found : Text} (hfound : node.attributes[other]? = some found) :
    (∃ old, before[id]? = some old ∧ old.attributes[other]? = some found) ∨ Holds built.attributes other found := by
  cases h with
  | fresh => exact .inr (.inl hfound)
  | merged hexisting hmerge => exact (mergeNode_traced hmerge hfound).imp_left fun hold => ⟨_, hexisting, hold⟩

theorem createNodes_traced {mentions : List (ExtractedEntity × LinkDecision)}
    {before after : BTreeMap EntityId MemoryNode}
    (h : createNodes provider input mentions before = .ok after) (hnode : after[id]? = some node)
    (hvalue : node.attributes[key]? = some value) :
    (∃ old, before[id]? = some old ∧ old.attributes[key]? = some value) ∨
      TracedTo provider input mentions id key value := by
  have hrun := creating_of_createNodes h
  clear h
  induction hrun with
  | done => exact .inl ⟨node, hnode, hvalue⟩
  | @skipped mention link rest before after _ _ ih =>
      exact (ih hnode).imp_right (TracedTo.mono (List.subset_cons_self (mention, link) rest))
  | @created mention link rest before after new built held hcreated hnew hbuilt hheld _ ih =>
      obtain ⟨old, hold, hfound⟩ | htraced := ih hnode
      · obtain ⟨rfl, rfl⟩ | ⟨-, hold⟩ := getElem?_insert_eq_some.mp hold
        · refine (held_traced hheld hfound).imp_right fun hholds => ?_
          exact ⟨(mention, link), List.mem_cons_self, hcreated, hnew, built, hbuilt, hholds⟩
        · exact .inl ⟨old, hold, hfound⟩
      · exact .inr (htraced.mono (List.subset_cons_self (mention, link) rest))

/-- Every attribute of a node that a plan upserts comes from a mention that is turned into it. -/
theorem buildPlan_traced (h : buildPlan unicode policy provider input linker output = .ok p) (hnode : Upserts p node)
    (hvalue : node.attributes[key]? = some value) :
    ∃ mention ∈ output.entities.items, TurnedInto unicode linker input policy mention node.id ∧
      ∃ built, buildNode mention node.id input provider = .ok built ∧ Holds built.attributes key value := by
  obtain ⟨links, created, hlinks, hcreated, hupserts⟩ := buildPlan_created h
  obtain ⟨id, hid⟩ := (hupserts node).mp hnode
  have hlocated := (createNodes_spec (fun id node hn => by
    rw [Std.ExtTreeMap.getElem?_empty] at hn
    cases hn) hcreated).located id node hid
  obtain ⟨old, hold, -⟩ | ⟨⟨mention, decision⟩, hm, hmethod, hentity, hbuilt⟩ := createNodes_traced hcreated hid hvalue
  · rw [Std.ExtTreeMap.getElem?_empty] at hold
    cases hold
  · obtain ⟨hmem, hlink⟩ := (linkEntities_spec hlinks).mp hm
    rw [hlocated.1]
    exact ⟨mention, hmem, ⟨decision, hlink, hmethod, hentity⟩, hbuilt⟩

/-- The mention gives no alias that the catalog would refuse, under a key that its own aliases do not overwrite. -/
def Harmless (mention : ExtractedEntity) : Prop :=
  ∀ key value : Text, mention.attributes[key]? = some value → isAliasKey key →
    (∀ i < mention.aliases.items.length, key.str ≠ numberedAlias i) → Trimmed value.str

theorem isAliasKey_of_startsWith (h : startsWith key "alias.") : isAliasKey key := .inr h

theorem built_catalogable (hvalid : mention.validate = .ok ()) (hharmless : Harmless mention)
    (hbuilt : buildNode mention id input provider = .ok built) (hvalue : built.attributes[key]? = some value) :
    Catalogable (key, value) := by
  obtain ⟨-, haliases, hother⟩ := buildNode_spec hbuilt
  rw [ExtractedEntity.validate] at hvalid
  simp only [unit_bind_eq_ok, validateTexts_eq_ok, validateExternalIds_eq_ok] at hvalid
  obtain ⟨-, -, -, htrimmed, -, hexternal, -⟩ := hvalid
  intro hkey
  by_cases hnumbered : ∃ i < mention.aliases.items.length, key.str = numberedAlias i
  · obtain ⟨i, hi, hname⟩ := hnumbered
    obtain ⟨other, ho, hfound⟩ := haliases i _ (List.getElem?_eq_getElem hi)
    obtain rfl : other = key := Text.ext (ho.trans hname.symm)
    rw [← Option.some.inj (hfound.symm.trans hvalue)]
    exact htrimmed _ (List.getElem_mem hi)
  · push Not at hnumbered
    rw [hother key hnumbered, baseAttribute] at hvalue
    cases hattribute : mention.attributes[key]? with
    | some given =>
        rw [hattribute] at hvalue
        obtain rfl := Option.some.inj hvalue
        obtain halias | hid := hkey
        · exact hharmless key given hattribute halias hnumbered
        · exact hexternal (key, given) (Std.ExtTreeMap.mem_toList_iff_getElem?_eq_some.mpr hattribute) hid
    | none =>
        have hsource : ¬ (isAliasKey extractionSource ∨ startsWith extractionSource "external_id.") := by decide
        have hby : ¬ (isAliasKey extractedBy ∨ startsWith extractedBy "external_id.") := by decide
        rw [hattribute] at hvalue
        dsimp only at hvalue
        split at hvalue
        next heq => exact absurd (heq ▸ hkey) hsource
        next =>
          split at hvalue
          next heq => exact absurd (heq ▸ hkey) hby
          next => cases hvalue

/-- A node that a plan upserts can be catalogued exactly if all mentions that are turned into it are harmless. -/
theorem catalogValid_iff_harmless (hvalid : ∀ mention ∈ output.entities.items, mention.validate = .ok ())
    (h : buildPlan unicode policy provider input linker output = .ok p) (hnode : Upserts p node) :
    CatalogValid node ↔ ∀ mention ∈ output.entities.items,
      TurnedInto unicode linker input policy mention node.id → Harmless mention := by
  constructor
  · intro hcatalog mention hmem hturned key value hvalue hkey hfree
    have hnodes := buildPlan_nodes h
    obtain ⟨other, ho, hid, built, hbuilt, hcarries⟩ := hnodes.absorbed mention hmem node.id hturned
    obtain rfl := hnodes.distinct other node ho hnode hid
    have hattribute : built.attributes[key]? = some value := by
      rw [(buildNode_spec hbuilt).2.2 key hfree, baseAttribute, hvalue]
    have hcarried := hcarries key value hattribute
    rw [Carries] at hcarried
    rw [catalogValid_iff] at hcatalog
    split at hcarried
    next =>
      obtain ⟨name, hname, hfound⟩ := hcarried
      exact hcatalog name value hfound (.inl (isAliasKey_of_startsWith hname))
    next => exact hcatalog key value hcarried (.inl hkey)
  · intro hharmless
    rw [catalogValid_iff]
    intro key value hvalue hkey
    obtain ⟨mention, hmem, hturned, built, hbuilt, hholds⟩ := buildPlan_traced h hnode hvalue
    have hcatalogable {name : Text} (hname : built.attributes[name]? = some value) : Catalogable (name, value) :=
      built_catalogable (hvalid mention hmem) (hharmless mention hmem hturned) hbuilt hname
    obtain hheld | ⟨-, other, ho, hheld⟩ := hholds
    · exact hcatalogable hheld hkey
    · exact hcatalogable hheld (.inl (isAliasKey_of_startsWith ho))

end WeavatrixMemory.Extraction.Tracing
