import WeavatrixMemory.Extraction.Linker
import WeavatrixMemory.Projection.Rebuild

namespace WeavatrixMemory.Extraction.Catalog

open Error Identity Domain Key Model Linker Outcome

def indexes : Option IndexBucket → List Nat
  | none => []
  | some (.one index) => [index]
  | some (.many indexes) => indexes

theorem indexes_push (value : Nat) (bucket : Option IndexBucket) :
    indexes (some (IndexBucket.push value bucket)) = indexes bucket ++ [value] := by
  cases bucket with
  | none => rfl
  | some bucket => cases bucket <;> rfl

theorem mem_insertIndex {κ : Type} [DecidableEq κ] {index : κ → Option IndexBucket} {key other : κ}
    {value i : Nat} : i ∈ indexes (insertIndex index key value other) ↔
      i ∈ indexes (index other) ∨ other = key ∧ i = value := by
  rw [insertIndex]
  by_cases h : other = key
  · subst h
    rw [Function.update_self, indexes_push, List.mem_append, List.mem_singleton]
    simp
  · rw [Function.update_of_ne h]
    simp [h]

def Catalogable (entry : Text × Text) : Prop :=
  isAliasKey entry.1 ∨ startsWith entry.1 "external_id." → Trimmed entry.2.str

instance decidableCatalogable (entry : Text × Text) : Decidable (Catalogable entry) :=
  inferInstanceAs (Decidable (_ → _))

def CatalogValid (node : MemoryNode) : Prop := ∀ entry ∈ node.attributes.toList, Catalogable entry

instance decidableCatalogValid (node : MemoryNode) : Decidable (CatalogValid node) :=
  inferInstanceAs (Decidable (∀ entry ∈ node.attributes.toList, _))

theorem catalogValid_iff {node : MemoryNode} : CatalogValid node ↔
    ∀ key value, node.attributes[key]? = some value → isAliasKey key ∨ startsWith key "external_id." →
      Trimmed value.str := by
  constructor
  · intro h key value hk
    exact h (key, value) (Std.ExtTreeMap.mem_toList_iff_getElem?_eq_some.mpr hk)
  · rintro h ⟨key, value⟩ he
    exact h key value (Std.ExtTreeMap.mem_toList_iff_getElem?_eq_some.mp he)

def labelName (unicode : Unicode) (node : MemoryNode) : String × String :=
  (normalized unicode node.kind.str, normalized unicode node.label.str)

def aliasName (unicode : Unicode) (kind : String) (entry : Text × Text) : Option (String × String) :=
  if isAliasKey entry.1 then some (kind, normalized unicode entry.2.str) else none

def externalName (unicode : Unicode) (kind : String) (entry : Text × Text) : Option (String × Text × String) :=
  if startsWith entry.1 "external_id." then some (kind, entry.1, exactKey unicode entry.2) else none

theorem not_isAliasKey_of_external {key : Text} (h : startsWith key "external_id.") : ¬ isAliasKey key := by
  obtain ⟨rest, hrest⟩ := h
  rintro (halias | ⟨other, hother⟩)
  · rw [halias] at hrest
    cases hrest
  · rw [← hother] at hrest
    cases hrest

structure Entered (unicode : Unicode) (kind : String) (index : Nat) (attributes : List (Text × Text))
    (before after : EntityLinker) : Prop where
  nodes : after.nodes = before.nodes
  byId : after.byId = before.byId
  byLabel : after.byLabel = before.byLabel
  byAlias : ∀ key i, i ∈ indexes (after.byAlias key) ↔ i ∈ indexes (before.byAlias key) ∨
    key ∈ attributes.filterMap (aliasName unicode kind) ∧ i = index
  byExternalId : ∀ key i, i ∈ indexes (after.byExternalId key) ↔ i ∈ indexes (before.byExternalId key) ∨
    key ∈ attributes.filterMap (externalName unicode kind) ∧ i = index

theorem mem_filterMap_singleton {α β : Type} {f : α → Option β} {a : α} {b : β} :
    b ∈ [a].filterMap f ↔ f a = some b := by
  rw [List.mem_filterMap]
  simp

theorem addAttribute_holds (unicode : Unicode) (kind : String) (index : Nat) (entry : Text × Text)
    (linker : EntityLinker) :
    Holds (fun after => Catalogable entry ∧ Entered unicode kind index [entry] linker after)
      (fun _ => ¬ Catalogable entry) (addAttribute unicode kind index entry.1 entry.2 linker) := by
  rw [addAttribute]
  by_cases ha : isAliasKey entry.1
  · have hx : ¬ startsWith entry.1 "external_id." := fun he => not_isAliasKey_of_external he ha
    rw [if_pos ha]
    refine Holds.check (fun e he hc => ?_) fun _ hv => ?_
    · rw [validateText_eq_ok.mpr (hc (.inl ha))] at he
      cases he
    · refine ⟨fun _ => validateText_eq_ok.mp hv, rfl, rfl, rfl, fun key i => ?_, fun key i => ?_⟩
      · rw [mem_filterMap_singleton, aliasName, if_pos ha, Option.some.injEq, eq_comm, mem_insertIndex, eq_comm]
      · rw [mem_filterMap_singleton, externalName, if_neg hx]
        simp
  · rw [if_neg ha]
    by_cases hx : startsWith entry.1 "external_id."
    · rw [if_pos hx]
      refine Holds.check (fun e he hc => ?_) fun _ hv => ?_
      · rw [validateText_eq_ok.mpr (hc (.inr hx))] at he
        cases he
      · refine ⟨fun _ => validateText_eq_ok.mp hv, rfl, rfl, rfl, fun key i => ?_, fun key i => ?_⟩
        · rw [mem_filterMap_singleton, aliasName, if_neg ha]
          simp
        · rw [mem_filterMap_singleton, externalName, if_pos hx, Option.some.injEq, eq_comm, mem_insertIndex,
            eq_comm]
    · rw [if_neg hx]
      refine ⟨fun h => absurd h (not_or_intro ha hx), rfl, rfl, rfl, fun key i => ?_, fun key i => ?_⟩
      · rw [mem_filterMap_singleton, aliasName, if_neg ha]
        simp
      · rw [mem_filterMap_singleton, externalName, if_neg hx]
        simp

theorem mem_filterMap_cons {α β : Type} {f : α → Option β} {a : α} {rest : List α} {b : β} :
    b ∈ (a :: rest).filterMap f ↔ b ∈ [a].filterMap f ∨ b ∈ rest.filterMap f := by
  rw [← List.mem_append, ← List.filterMap_append, List.singleton_append]

theorem Entered.trans {unicode : Unicode} {kind : String} {index : Nat} {entry : Text × Text}
    {rest : List (Text × Text)} {a b c : EntityLinker} (h : Entered unicode kind index [entry] a b)
    (h' : Entered unicode kind index rest b c) : Entered unicode kind index (entry :: rest) a c where
  nodes := h'.nodes.trans h.nodes
  byId := h'.byId.trans h.byId
  byLabel := h'.byLabel.trans h.byLabel
  byAlias key i := by
    rw [h'.byAlias, h.byAlias, @mem_filterMap_cons _ _ _ _ rest, or_and_right, or_assoc]
  byExternalId key i := by
    rw [h'.byExternalId, h.byExternalId, @mem_filterMap_cons _ _ _ _ rest, or_and_right, or_assoc]

theorem addAttributes_holds (unicode : Unicode) (kind : String) (index : Nat) (attributes : List (Text × Text))
    (linker : EntityLinker) :
    Holds (fun after => (∀ entry ∈ attributes, Catalogable entry) ∧
        Entered unicode kind index attributes linker after)
      (fun _ => ¬ ∀ entry ∈ attributes, Catalogable entry)
      (addAttributes unicode kind index attributes linker) := by
  induction attributes generalizing linker with
  | nil =>
      refine ⟨fun _ h => absurd h List.not_mem_nil, rfl, rfl, rfl, fun key i => ?_, fun key i => ?_⟩ <;> simp
  | cons entry rest ih =>
      rw [addAttributes, List.forall_mem_cons]
      have hentry := addAttribute_holds unicode kind index entry linker
      refine Holds.check (fun e he hc => hentry.of_error he hc.1) fun after ha => ?_
      obtain ⟨hc, hentered⟩ := hentry.of_ok ha
      refine (ih after).mono (fun last hlast => ⟨⟨hc, hlast.1⟩, hentered.trans hlast.2⟩) ?_
      exact fun e he hall => he hall.2

def catalogEntity (unicode : Unicode) (node : MemoryNode) : CatalogEntity :=
  ⟨node.id, normalized unicode node.kind.str, node.repository, node.branch⟩

def IndexedBy {κ : Type} (names : MemoryNode → List κ) (nodes : List MemoryNode)
    (index : κ → Option IndexBucket) : Prop :=
  ∀ key i, i ∈ indexes (index key) ↔ ∃ node, nodes[i]? = some node ∧ key ∈ names node

def aliasNames (unicode : Unicode) (node : MemoryNode) : List (String × String) :=
  node.attributes.toList.filterMap (aliasName unicode (normalized unicode node.kind.str))

def externalNames (unicode : Unicode) (node : MemoryNode) : List (String × Text × String) :=
  node.attributes.toList.filterMap (externalName unicode (normalized unicode node.kind.str))

structure Catalogued (unicode : Unicode) (nodes : List MemoryNode) (linker : EntityLinker) : Prop where
  entities : linker.nodes = nodes.map (catalogEntity unicode)
  byId : ∀ id i, linker.byId id = some i ↔ ∃ node : MemoryNode, nodes[i]? = some node ∧ node.id = id
  byLabel : IndexedBy (fun node => [labelName unicode node]) nodes linker.byLabel
  byAlias : IndexedBy (aliasNames unicode) nodes linker.byAlias
  byExternalId : IndexedBy (externalNames unicode) nodes linker.byExternalId

theorem getElem?_snoc {α : Type} {xs : List α} {x a : α} {i : Nat} :
    (xs ++ [x])[i]? = some a ↔ xs[i]? = some a ∨ i = xs.length ∧ a = x := by
  by_cases h : i < xs.length
  · rw [List.getElem?_append_left h]
    simp [Nat.ne_of_lt h]
  · rw [List.getElem?_append_right (Nat.not_lt.mp h), List.getElem?_singleton]
    have hnone : xs[i]? = none := List.getElem?_eq_none (Nat.not_lt.mp h)
    rw [hnone]
    by_cases he : i = xs.length
    · subst he
      simp [eq_comm]
    · have hsub : i - xs.length ≠ 0 := by omega
      simp [hsub, he]

theorem IndexedBy.snoc {κ : Type} {names : MemoryNode → List κ} {nodes : List MemoryNode}
    {index next : κ → Option IndexBucket} (h : IndexedBy names nodes index) (node : MemoryNode)
    (hnext : ∀ key i, i ∈ indexes (next key) ↔ i ∈ indexes (index key) ∨ key ∈ names node ∧ i = nodes.length) :
    IndexedBy names (nodes ++ [node]) next := by
  intro key i
  rw [hnext, h key i]
  simp only [getElem?_snoc, or_and_right, exists_or]
  refine or_congr_right ⟨fun ⟨hkey, hi⟩ => ⟨node, ⟨hi, rfl⟩, hkey⟩, ?_⟩
  rintro ⟨_, ⟨hi, rfl⟩, hkey⟩
  exact ⟨hkey, hi⟩

theorem catalogued_nil (unicode : Unicode) : Catalogued unicode [] .empty where
  entities := rfl
  byId id i := by simp [EntityLinker.empty]
  byLabel key i := by simp [EntityLinker.empty, indexes]
  byAlias key i := by simp [EntityLinker.empty, indexes]
  byExternalId key i := by simp [EntityLinker.empty, indexes]

structure Admissible (nodes : List MemoryNode) : Prop where
  valid : ∀ node ∈ nodes, node.validate = .ok () ∧ CatalogValid node
  distinct : (nodes.map (·.id)).Nodup

theorem byId_isSome {unicode : Unicode} {nodes : List MemoryNode} {linker : EntityLinker}
    (h : Catalogued unicode nodes linker) (id : EntityId) :
    (linker.byId id).isSome = true ↔ id ∈ nodes.map (·.id) := by
  rw [Option.isSome_iff_exists, List.mem_map]
  constructor
  · rintro ⟨i, hi⟩
    obtain ⟨node, hn, hid⟩ := (h.byId id i).mp hi
    exact ⟨node, List.mem_of_getElem? hn, hid⟩
  · rintro ⟨node, hn, hid⟩
    obtain ⟨i, hi⟩ := List.mem_iff_getElem?.mp hn
    exact ⟨i, (h.byId id i).mpr ⟨node, hi, hid⟩⟩

theorem addNode_holds {unicode : Unicode} {nodes : List MemoryNode} {linker : EntityLinker}
    (h : Catalogued unicode nodes linker) (node : MemoryNode) :
    Holds (fun after => (node.validate = .ok () ∧ CatalogValid node) ∧ node.id ∉ nodes.map (·.id) ∧
        Catalogued unicode (nodes ++ [node]) after)
      (fun _ => ¬ ((node.validate = .ok () ∧ CatalogValid node) ∧ node.id ∉ nodes.map (·.id)))
      (addNode unicode nodes.length node linker) := by
  rw [addNode]
  refine Holds.check (fun e he hc => ?_) fun _ hv => Holds.check (fun e he hc => ?_) fun _ hn => ?_
  · rw [hc.1.1] at he
    cases he
  · exact hc.2 ((byId_isSome h node.id).mp (throwIf_eq_error.mp he).1)
  · have hnew : node.id ∉ nodes.map (·.id) := fun hmem => throwIf_eq_ok.mp hn ((byId_isSome h node.id).mpr hmem)
    refine (addAttributes_holds unicode _ _ _ _).mono (fun after ha => ?_) fun e he hc => he hc.1.2
    obtain ⟨hcatalog, hentered⟩ := ha
    refine ⟨⟨hv, hcatalog⟩, hnew, ?_, fun id i => ?_, ?_, ?_, ?_⟩
    · rw [hentered.nodes, h.entities, List.map_append]
      rfl
    · rw [hentered.byId]
      simp only [getElem?_snoc, or_and_right, exists_or]
      by_cases hid : id = node.id
      · subst hid
        rw [Function.update_self]
        constructor
        · intro hi
          exact .inr ⟨node, ⟨(Option.some.inj hi).symm, rfl⟩, rfl⟩
        · rintro (⟨other, hother, hid⟩ | ⟨_, ⟨rfl, rfl⟩, -⟩)
          · exact absurd (List.mem_map.mpr ⟨other, List.mem_of_getElem? hother, hid⟩) hnew
          · rfl
      · rw [Function.update_of_ne hid, h.byId]
        refine (or_iff_left ?_).symm
        rintro ⟨_, ⟨-, rfl⟩, hsame⟩
        exact hid hsame.symm
    · refine h.byLabel.snoc node fun key i => ?_
      rw [hentered.byLabel, mem_insertIndex, List.mem_singleton, labelName]
    · refine h.byAlias.snoc node fun key i => ?_
      rw [hentered.byAlias, aliasNames]
    · refine h.byExternalId.snoc node fun key i => ?_
      rw [hentered.byExternalId, externalNames]

theorem addNodes_holds {unicode : Unicode} (rest : List MemoryNode) {nodes : List MemoryNode}
    {linker : EntityLinker} (h : Catalogued unicode nodes linker) (hd : (nodes.map (·.id)).Nodup) :
    Holds (fun after => ((∀ node ∈ rest, node.validate = .ok () ∧ CatalogValid node) ∧
        ((nodes ++ rest).map (·.id)).Nodup) ∧ Catalogued unicode (nodes ++ rest) after)
      (fun _ => ¬ ((∀ node ∈ rest, node.validate = .ok () ∧ CatalogValid node) ∧
        ((nodes ++ rest).map (·.id)).Nodup))
      (addNodes unicode nodes.length rest linker) := by
  induction rest generalizing nodes linker with
  | nil =>
      rw [List.append_nil]
      exact ⟨⟨fun _ h => absurd h List.not_mem_nil, hd⟩, h⟩
  | cons node rest ih =>
      have hsplit : nodes ++ node :: rest = (nodes ++ [node]) ++ rest := by simp
      have hnode := addNode_holds h node
      rw [addNodes, hsplit, List.forall_mem_cons]
      refine Holds.check (fun e he hc => hnode.of_error he ⟨hc.1.1, ?_⟩) fun after ha => ?_
      · have hnodup := hc.2
        rw [List.map_append, List.map_append, List.append_assoc, List.nodup_append] at hnodup
        intro hmem
        exact hnodup.2.2 _ hmem _ (List.mem_append_left _ (List.mem_singleton_self _)) rfl
      · obtain ⟨hvalid, hnew, hcatalogued⟩ := hnode.of_ok ha
        have hnodup : ((nodes ++ [node]).map (·.id)).Nodup := by
          rw [List.map_append]
          exact List.nodup_append.mpr ⟨hd, List.nodup_singleton _, fun a ha b hb => by
            rw [List.map_singleton, List.mem_singleton] at hb
            rintro rfl
            exact hnew (hb ▸ ha)⟩
        have hrec := ih hcatalogued hnodup
        rw [List.length_append, List.length_singleton] at hrec
        exact hrec.mono (fun last hlast => ⟨⟨⟨hvalid, hlast.1.1⟩, hlast.1.2⟩, hlast.2⟩)
          fun e he hc => he ⟨hc.1.2, hc.2⟩

theorem fromView_holds (unicode : Unicode) (view : MemoryView) :
    Holds (fun linker => Admissible view.nodes ∧ Catalogued unicode view.nodes linker)
      (fun _ => ¬ Admissible view.nodes) (fromView unicode view) := by
  have h := addNodes_holds view.nodes (catalogued_nil unicode) List.nodup_nil
  rw [List.nil_append] at h
  exact h.mono (fun linker hl => ⟨⟨hl.1.1, hl.1.2⟩, hl.2⟩) fun e he ha => he ⟨ha.valid, ha.distinct⟩

theorem fromView_catalogued {unicode : Unicode} {view : MemoryView} {linker : EntityLinker}
    (h : fromView unicode view = .ok linker) : Catalogued unicode view.nodes linker :=
  ((fromView_holds unicode view).of_ok h).2

/-- A linker can be built from a view exactly if its nodes pass the checks. -/
theorem exists_fromView {unicode : Unicode} {view : MemoryView} :
    (∃ linker, fromView unicode view = .ok linker) ↔ Admissible view.nodes := by
  have h := fromView_holds unicode view
  constructor
  · rintro ⟨linker, hl⟩
    exact (h.of_ok hl).1
  · intro ha
    exact (h.mono (fun _ _ => trivial) fun e he => he ha).exists_ok.imp fun linker hl => hl.1

end WeavatrixMemory.Extraction.Catalog
