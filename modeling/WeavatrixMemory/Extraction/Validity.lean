import WeavatrixMemory.Extraction.Created

namespace WeavatrixMemory.Extraction.Validity

open Error Identity Domain Key Model Engine Merging

variable {provider key value : Text} {input : ExtractionInput} {output : ExtractionOutput} {mention : ExtractedEntity}
  {node next existing incoming merged built : MemoryNode}

structure SoundInput (input : ExtractionInput) : Prop where
  source : Trimmed input.source.str
  occurred : input.occurredAt ≤ input.recordedAt
  repository : ∀ text, input.repository = some text → Trimmed text.str
  branch : ∀ text, input.branch = some text → Trimmed text.str
  locator : ∀ text, input.locator = some text → Trimmed text.str
  digest : ∀ text, input.digest = some text → Trimmed text.str

theorem soundInput_of_validate (h : input.validate = .ok ()) : SoundInput input := by
  rw [ExtractionInput.validate] at h
  simp only [unit_bind_eq_ok, validateText_eq_ok, throwIf_eq_ok, validateOptionalText_eq_ok, not_lt] at h
  obtain ⟨hsource, -, hoccurred, hrepository, hbranch, hlocator, hdigest⟩ := h
  exact ⟨hsource, hoccurred, hrepository, hbranch, hlocator, hdigest⟩

structure SoundRelation (input : ExtractionInput) (mentions : List Text) (relation : ExtractedRelation) : Prop where
  text : Trimmed relation.relation.str
  source : relation.source ∈ mentions
  target : relation.target ∈ mentions
  later : ∀ validUntil, relation.validUntil = some validUntil → relation.validFrom.getD input.occurredAt < validUntil

structure SoundOutput (output : ExtractionOutput) (input : ExtractionInput) : Prop where
  keys : ∀ mention ∈ output.entities.items, ∀ key ∈ mention.attributes, Trimmed key.str
  mentions : (output.entities.items.map (·.localId)).Nodup
  each : ∀ relation ∈ output.relations.items, SoundRelation input (output.entities.items.map (·.localId)) relation
  relations : (output.relations.items.map (·.localId)).Nodup

theorem trimmed_keys (h : mention.validate = .ok ()) : ∀ key ∈ mention.attributes, Trimmed key.str := by
  rw [ExtractedEntity.validate] at h
  simp only [unit_bind_eq_ok, validateTexts_eq_ok, Std.ExtTreeMap.mem_keys] at h
  exact h.2.2.2.2.1

theorem validateEntities_spec {seen found : List Text} {entities : List ExtractedEntity}
    (h : validateEntities input seen entities = .ok found) :
    (∀ mention ∈ entities, mention.validate = .ok () ∧ mention.localId ∉ seen) ∧ (entities.map (·.localId)).Nodup ∧
      ∀ id, id ∈ found ↔ id ∈ seen ∨ id ∈ entities.map (·.localId) := by
  induction entities generalizing seen with
  | nil =>
      obtain rfl := Except.ok.inj h
      exact ⟨fun _ h => absurd h List.not_mem_nil, List.nodup_nil, fun id => by simp⟩
  | cons entity rest ih =>
      rw [validateEntities] at h
      obtain ⟨hentity, h⟩ := unit_bind_eq_ok.mp h
      obtain ⟨-, h⟩ := unit_bind_eq_ok.mp h
      obtain ⟨hnew, h⟩ := unit_bind_eq_ok.mp h
      obtain ⟨heach, hnodup, hfound⟩ := ih h
      refine ⟨List.forall_mem_cons.mpr ⟨⟨hentity, throwIf_eq_ok.mp hnew⟩, fun mention hm => ?_⟩, ?_, fun id => ?_⟩
      · obtain ⟨hvalid, hseen⟩ := heach mention hm
        exact ⟨hvalid, fun hmem => hseen (List.mem_cons_of_mem _ hmem)⟩
      · rw [List.map_cons, List.nodup_cons]
        refine ⟨fun hmem => ?_, hnodup⟩
        obtain ⟨mention, hm, hsame⟩ := List.mem_map.mp hmem
        apply (heach mention hm).2
        rw [hsame]
        exact List.mem_cons_self
      · rw [hfound, List.mem_cons, List.map_cons, List.mem_cons, or_assoc, or_left_comm]

theorem validateRelation_spec {mentions seen : List Text} {relation : ExtractedRelation}
    (h : validateRelation input mentions seen relation = .ok ()) :
    SoundRelation input mentions relation ∧ relation.localId ∉ seen := by
  rw [validateRelation, ExtractedRelation.validate] at h
  simp only [unit_bind_eq_ok, validateText_eq_ok, throwIf_eq_ok, not_or, not_not] at h
  obtain ⟨⟨-, -, hrelation, -⟩, -, hnew, ⟨hsource, htarget⟩, hlater⟩ := h
  refine ⟨⟨hrelation, hsource, htarget, fun validUntil hu => ?_⟩, hnew⟩
  rw [hu] at hlater
  exact not_le.mp fun hle => hlater (decide_eq_true hle)

theorem validateRelations_spec {mentions seen : List Text} {relations : List ExtractedRelation}
    (h : validateRelations input mentions seen relations = .ok ()) :
    (∀ relation ∈ relations, SoundRelation input mentions relation ∧ relation.localId ∉ seen) ∧
      (relations.map (·.localId)).Nodup := by
  induction relations generalizing seen with
  | nil => exact ⟨fun _ h => absurd h List.not_mem_nil, List.nodup_nil⟩
  | cons relation rest ih =>
      rw [validateRelations] at h
      obtain ⟨hrelation, h⟩ := unit_bind_eq_ok.mp h
      obtain ⟨heach, hnodup⟩ := ih h
      refine ⟨List.forall_mem_cons.mpr ⟨validateRelation_spec hrelation, fun other ho => ?_⟩, ?_⟩
      · obtain ⟨hsound, hseen⟩ := heach other ho
        exact ⟨hsound, fun hmem => hseen (List.mem_cons_of_mem _ hmem)⟩
      · rw [List.map_cons, List.nodup_cons]
        refine ⟨fun hmem => ?_, hnodup⟩
        obtain ⟨other, ho, hsame⟩ := List.mem_map.mp hmem
        apply (heach other ho).2
        rw [hsame]
        exact List.mem_cons_self

theorem validateOutput_mentions (h : validateOutput output input = .ok ()) :
    ∀ mention ∈ output.entities.items, mention.validate = .ok () := by
  rw [validateOutput] at h
  obtain ⟨found, hentities, -⟩ := bind_eq_ok.mp h
  exact fun mention hm => ((validateEntities_spec hentities).1 mention hm).1

theorem soundOutput_of_validate (h : validateOutput output input = .ok ()) : SoundOutput output input := by
  rw [validateOutput] at h
  obtain ⟨found, hentities, hrelations⟩ := bind_eq_ok.mp h
  obtain ⟨heach, hnodup, hfound⟩ := validateEntities_spec hentities
  obtain ⟨hsound, hdistinct⟩ := validateRelations_spec hrelations
  have hmem (id : Text) (hid : id ∈ found) : id ∈ output.entities.items.map (·.localId) :=
    ((hfound id).mp hid).resolve_left List.not_mem_nil
  refine ⟨fun mention hm => trimmed_keys (heach mention hm).1, hnodup, fun relation hr => ?_, hdistinct⟩
  obtain ⟨hrelation, hsource, htarget, hlater⟩ := (hsound relation hr).1
  exact ⟨hrelation, hmem _ hsource, hmem _ htarget, hlater⟩

theorem withAttribute_valid (hnode : node.validate = .ok ()) (hkey : Trimmed key.str)
    (h : node.withAttribute key value = .ok next) : next.validate = .ok () := by
  obtain ⟨hattributes, -, hkind, hlabel, hrepository, hbranch⟩ := MemoryNode.withAttribute_eq_ok.mp h
  rw [MemoryNode.validate_eq_ok] at hnode ⊢
  rw [hattributes, hkind, hlabel, hrepository, hbranch]
  refine ⟨hnode.1, hnode.2.1, hnode.2.2.1, hnode.2.2.2.1, fun other ho => ?_⟩
  rw [Std.ExtTreeMap.mem_insert, Std.LawfulEqOrd.compare_eq_iff_eq] at ho
  obtain rfl | ho := ho
  · exact hkey
  · exact hnode.2.2.2.2 other ho

theorem trimmed_numberedAlias (index : Nat) : Trimmed (numberedAlias index) :=
  trimmed_number (by rfl) (by decide) index

theorem withAttributes_valid {entries : List (Text × Text)} (hnode : node.validate = .ok ())
    (hkeys : ∀ entry ∈ entries, Trimmed entry.1.str) (h : withAttributes entries node = .ok next) :
    next.validate = .ok () := by
  induction entries generalizing node with
  | nil =>
      obtain rfl := Except.ok.inj h
      exact hnode
  | cons entry rest ih =>
      rw [withAttributes] at h
      obtain ⟨first, hfirst, h⟩ := bind_eq_ok.mp h
      obtain ⟨hkey, hrest⟩ := List.forall_mem_cons.mp hkeys
      exact ih (withAttribute_valid hnode hkey hfirst) hrest h

theorem withAliases_valid {values : List Text} {index : Nat} (hnode : node.validate = .ok ())
    (h : withAliases index values node = .ok next) : next.validate = .ok () := by
  induction values generalizing node index with
  | nil =>
      obtain rfl := Except.ok.inj h
      exact hnode
  | cons value rest ih =>
      rw [withAliases] at h
      obtain ⟨key, hkey, h⟩ := bind_eq_ok.mp h
      obtain ⟨first, hfirst, h⟩ := bind_eq_ok.mp h
      refine ih (withAttribute_valid hnode ?_ hfirst) h
      rw [formatted_eq_ok.mp hkey]
      exact trimmed_numberedAlias index

theorem new_valid {id : EntityId} {kind label : Text} (h : MemoryNode.new id kind label = .ok node) :
    node.validate = .ok () := by
  rw [MemoryNode.new] at h
  obtain ⟨hvalid, h⟩ := unit_bind_eq_ok.mp h
  obtain rfl := Except.ok.inj h
  exact hvalid

theorem scoped_valid (hinput : SoundInput input) (hnode : node.validate = .ok ()) :
    (input.branch.elim (input.repository.elim node node.inRepository)
      (input.repository.elim node node.inRepository).onBranch).validate = .ok () := by
  rw [MemoryNode.validate_eq_ok] at hnode ⊢
  obtain ⟨hkind, hlabel, hrepository, hbranch, hkeys⟩ := hnode
  have hin := hinput.repository
  have hon := hinput.branch
  cases hr : input.repository <;> cases hb : input.branch <;> rw [hr] at hin <;> rw [hb] at hon
  · exact ⟨hkind, hlabel, hrepository, hbranch, hkeys⟩
  · exact ⟨hkind, hlabel, hrepository, hon, hkeys⟩
  · exact ⟨hkind, hlabel, hin, hbranch, hkeys⟩
  · exact ⟨hkind, hlabel, hin, hon, hkeys⟩

theorem buildNode_valid (hinput : SoundInput input) (hkeys : ∀ key ∈ mention.attributes, Trimmed key.str)
    {id : EntityId} (h : buildNode mention id input provider = .ok built) : built.validate = .ok () := by
  rw [buildNode] at h
  obtain ⟨bare, hbare, h⟩ := bind_eq_ok.mp h
  obtain ⟨named, hnamed, h⟩ := bind_eq_ok.mp h
  obtain ⟨sourced, hsourced, h⟩ := bind_eq_ok.mp h
  obtain ⟨attributed, hattributed, h⟩ := bind_eq_ok.mp h
  have hnode := withAttribute_valid (new_valid hbare) (by decide) hnamed
  have hlocated := scoped_valid hinput (withAttribute_valid hnode (by decide) hsourced)
  refine withAliases_valid (withAttributes_valid hlocated (fun entry he => hkeys entry.1 ?_) hattributed) h
  rw [Std.ExtTreeMap.mem_iff_isSome_getElem?, Std.ExtTreeMap.mem_toList_iff_getElem?_eq_some.mp he]
  rfl

theorem mergeAttributes_valid {entries : List (Text × Text)} (hexisting : existing.validate = .ok ())
    (hkeys : ∀ entry ∈ entries, Trimmed entry.1.str) (h : mergeAttributes provider entries existing = .ok merged) :
    merged.validate = .ok () := by
  induction entries generalizing existing with
  | nil =>
      obtain rfl := Except.ok.inj h
      exact hexisting
  | cons entry rest ih =>
      rw [mergeAttributes] at h
      obtain ⟨first, hfirst, h⟩ := bind_eq_ok.mp h
      obtain ⟨hkey, hrest⟩ := List.forall_mem_cons.mp hkeys
      refine ih ?_ hrest h
      rw [mergeAttribute] at hfirst
      split at hfirst
      next =>
        split at hfirst
        next =>
          obtain rfl := Except.ok.inj hfirst
          exact hexisting
        next =>
          obtain ⟨other, hother, hfirst⟩ := bind_eq_ok.mp hfirst
          obtain ⟨-, i, hname⟩ := freeAlias_spec hother
          refine withAttribute_valid hexisting ?_ hfirst
          rw [hname]
          exact trimmed_numberedAlias i
      next =>
        obtain ⟨written, hwritten, hfirst⟩ := bind_eq_ok.mp hfirst
        obtain ⟨-, hfirst⟩ := unit_bind_eq_ok.mp hfirst
        obtain rfl := Except.ok.inj hfirst
        exact withAttribute_valid hexisting hkey hwritten

theorem mergeNode_valid (hexisting : existing.validate = .ok ()) (hincoming : incoming.validate = .ok ())
    (h : mergeNode existing incoming provider = .ok merged) : merged.validate = .ok () := by
  rw [mergeNode] at h
  obtain ⟨-, h⟩ := unit_bind_eq_ok.mp h
  refine mergeAttributes_valid hexisting (fun entry he => ?_) h
  apply (MemoryNode.validate_eq_ok.mp hincoming).2.2.2.2
  rw [Std.ExtTreeMap.mem_iff_isSome_getElem?, Std.ExtTreeMap.mem_toList_iff_getElem?_eq_some.mp he]
  rfl

theorem createNodes_valid {mentions : List (ExtractedEntity × LinkDecision)}
    {before after : BTreeMap EntityId MemoryNode}
    (hinput : SoundInput input) (hkeys : ∀ mention ∈ mentions, ∀ key ∈ mention.1.attributes, Trimmed key.str)
    (hbefore : ∀ (id : EntityId) (node : MemoryNode), before[id]? = some node → node.validate = .ok ())
    (h : createNodes provider input mentions before = .ok after) (id : EntityId) (node : MemoryNode)
    (hnode : after[id]? = some node) : node.validate = .ok () := by
  have hrun := creating_of_createNodes h
  clear h
  induction hrun with
  | done => exact hbefore id node hnode
  | skipped _ _ ih => exact ih (List.forall_mem_cons.mp hkeys).2 hbefore hnode
  | @created mention link rest before after new built held _ _ hbuilt hheld _ ih =>
      obtain ⟨hmention, hrest⟩ := List.forall_mem_cons.mp hkeys
      have hvalid := buildNode_valid hinput hmention hbuilt
      refine ih hrest (fun other found hfound => ?_) hnode
      obtain ⟨rfl, rfl⟩ | ⟨-, hfound⟩ := getElem?_insert_eq_some.mp hfound
      · cases hheld with
        | fresh => exact hvalid
        | merged hexisting hmerge => exact mergeNode_valid (hbefore _ _ hexisting) hvalid hmerge
      · exact hbefore other found hfound

end WeavatrixMemory.Extraction.Validity
