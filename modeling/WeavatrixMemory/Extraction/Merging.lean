import WeavatrixMemory.Extraction.Engine
import WeavatrixMemory.Library.Probing

namespace WeavatrixMemory.Extraction.Merging

open Error Identity Domain Key Model Linker Engine

variable {provider : Text} {input : ExtractionInput} {existing incoming merged node next : MemoryNode}
  {key value : Text}

structure SameShell (existing merged : MemoryNode) : Prop where
  id : merged.id = existing.id
  kind : merged.kind = existing.kind
  label : merged.label = existing.label
  repository : merged.repository = existing.repository
  branch : merged.branch = existing.branch

theorem SameShell.trans {a b c : MemoryNode} (h : SameShell a b) (h' : SameShell b c) : SameShell a c where
  id := h'.id.trans h.id
  kind := h'.kind.trans h.kind
  label := h'.label.trans h.label
  repository := h'.repository.trans h.repository
  branch := h'.branch.trans h.branch

theorem SameShell.refl (node : MemoryNode) : SameShell node node := ⟨rfl, rfl, rfl, rfl, rfl⟩

theorem withAttribute_shell (h : existing.withAttribute key value = .ok merged) : SameShell existing merged := by
  obtain ⟨-, hid, hkind, hlabel, hrepository, hbranch⟩ := MemoryNode.withAttribute_eq_ok.mp h
  exact ⟨hid, hkind, hlabel, hrepository, hbranch⟩

structure Extends (existing merged : MemoryNode) : Prop where
  shell : SameShell existing merged
  attributes : ∀ key value : Text, existing.attributes[key]? = some value → merged.attributes[key]? = some value

theorem Extends.refl (node : MemoryNode) : Extends node node := ⟨.refl node, fun _ _ h => h⟩

theorem Extends.trans {a b c : MemoryNode} (h : Extends a b) (h' : Extends b c) : Extends a c where
  shell := h.shell.trans h'.shell
  attributes key value hk := h'.attributes key value (h.attributes key value hk)

/-- A node carries an attribute: an alias under any of the alias keys. -/
def Carries (node : MemoryNode) (key value : Text) : Prop :=
  if startsWith key "alias." then ∃ other : Text, startsWith other "alias." ∧ node.attributes[other]? = some value
  else node.attributes[key]? = some value

theorem carries_self (h : node.attributes[key]? = some value) : Carries node key value := by
  rw [Carries]
  split
  next halias => exact ⟨key, halias, h⟩
  next => exact h

theorem Extends.carries (h : Extends existing merged) (hc : Carries existing key value) : Carries merged key value := by
  rw [Carries] at hc ⊢
  split
  next halias =>
    rw [if_pos halias] at hc
    exact hc.imp fun other ho => ⟨ho.1, h.attributes other value ho.2⟩
  next halias =>
    rw [if_neg halias] at hc
    exact h.attributes key value hc

theorem withAttribute_extends (h : existing.withAttribute key value = .ok merged)
    (hkey : ∀ old : Text, existing.attributes[key]? = some old → old = value) : Extends existing merged := by
  refine ⟨withAttribute_shell h, fun other old ho => ?_⟩
  rw [(MemoryNode.withAttribute_eq_ok.mp h).1, getElem?_insert]
  split
  next heq =>
    subst heq
    rw [hkey old ho]
  next => exact ho

theorem withAttribute_self (h : existing.withAttribute key value = .ok merged) :
    merged.attributes[key]? = some value := by
  rw [(MemoryNode.withAttribute_eq_ok.mp h).1, getElem?_insert, if_pos rfl]

theorem hasAlias_iff {attributes : BTreeMap Text Text} : hasAlias attributes value = true ↔
    ∃ other : Text, startsWith other "alias." ∧ attributes[other]? = some value := by
  rw [hasAlias, List.any_eq_true]
  constructor
  · rintro ⟨⟨other, found⟩, hmem, h⟩
    obtain ⟨halias, rfl⟩ := of_decide_eq_true h
    exact ⟨other, halias, Std.ExtTreeMap.mem_toList_iff_getElem?_eq_some.mp hmem⟩
  · rintro ⟨other, halias, hother⟩
    exact ⟨(other, value), Std.ExtTreeMap.mem_toList_iff_getElem?_eq_some.mpr hother, decide_eq_true ⟨halias, rfl⟩⟩

/-- `format!("alias.{index}")`. -/
def numberedAlias (index : Nat) : String := "alias." ++ toString index

theorem startsWith_numberedAlias {index : Nat} (h : key.str = numberedAlias index) : startsWith key "alias." := by
  rw [startsWith, h, numberedAlias, String.toList_append]
  exact List.prefix_append _ _

theorem numberedAlias_injective : Function.Injective numberedAlias := by
  intro i j h
  have hlist := congrArg String.toList h
  rw [numberedAlias, numberedAlias, String.toList_append, String.toList_append] at hlist
  have hdigits := List.append_cancel_left hlist
  have hvalue := congrArg (fun digits => Nat.ofDigitChars 10 digits 0) hdigits
  simpa [Nat.toString_eq_ofList_toDigits] using hvalue

theorem utf8ByteSize_numberedAlias_lt {index : Nat} (h : index < 2 ^ 64) :
    (numberedAlias index).utf8ByteSize < 2 ^ 63 := by
  have hdigits : (Nat.toDigits 10 index).length ≤ 20 :=
    (Nat.length_toDigits_le_iff (by decide) (by decide)).mpr (h.trans (by decide))
  have hsize := utf8ByteSize_ofList_le (Nat.toDigits 10 index)
  rw [numberedAlias, String.utf8ByteSize_append, Nat.toString_eq_ofList_toDigits]
  have halias : "alias.".utf8ByteSize = 6 := by decide
  omega

theorem exists_aliasKey {index : Nat} (h : index < 2 ^ 64) :
    ∃ key, formatted ("alias." ++ toString index) = .ok key ∧ key.str = numberedAlias index :=
  ⟨⟨numberedAlias index, utf8ByteSize_numberedAlias_lt h⟩, formatted_eq_ok.mpr rfl, rfl⟩

theorem exists_freeAlias {attributes : BTreeMap Text Text} {rounds index : Nat} (hbound : index + rounds ≤ 2 ^ 64)
    (h : ∃ i < rounds, ∀ key ∈ attributes, key.str ≠ numberedAlias (index + i)) :
    ∃ key, freeAlias attributes rounds index = .ok key := by
  induction rounds generalizing index with
  | zero =>
      obtain ⟨i, hi, -⟩ := h
      exact absurd hi (Nat.not_lt_zero i)
  | succ rounds ih =>
      obtain ⟨key, hkey, hname⟩ := exists_aliasKey (show index < 2 ^ 64 by omega)
      rw [freeAlias, hkey, ok_bind]
      by_cases hin : key ∈ attributes
      · rw [if_pos hin]
        obtain ⟨i, hi, hfree⟩ := h
        cases i with
        | zero => exact absurd hname (hfree key hin)
        | succ i =>
            refine ih (by omega) ⟨i, by omega, fun other ho => ?_⟩
            rw [Nat.add_assoc, Nat.add_comm 1]
            exact hfree other ho
      · exact ⟨key, if_neg hin⟩

theorem card_keys_le (attributes : BTreeMap Text Text) :
    ((attributes.keys.map Text.str).toFinset).card ≤ attributes.size := by
  refine (List.toFinset_card_le _).trans ?_
  rw [List.length_map, Std.ExtTreeMap.length_keys]

/-- The renumbering loop always ends. -/
theorem freeAlias_ends (node : MemoryNode) :
    ∃ key, freeAlias node.attributes (node.attributes.size + 1) node.attributes.size = .ok key := by
  have hfit := node.attributesFit
  apply exists_freeAlias (by omega)
  obtain ⟨i, hi, hfree⟩ := Probing.exists_free numberedAlias_injective ((node.attributes.keys.map Text.str).toFinset)
    node.attributes.size
  have hcard := card_keys_le node.attributes
  refine ⟨i, by omega, fun key hkey heq => hfree ?_⟩
  rw [List.mem_toFinset, ← heq]
  exact List.mem_map_of_mem (Std.ExtTreeMap.mem_keys.mpr hkey)

theorem freeAlias_spec {attributes : BTreeMap Text Text} {rounds index : Nat}
    (h : freeAlias attributes rounds index = .ok key) : key ∉ attributes ∧ ∃ i, key.str = numberedAlias i := by
  induction rounds generalizing index with
  | zero => cases h
  | succ rounds ih =>
      rw [freeAlias] at h
      obtain ⟨other, hother, h⟩ := bind_eq_ok.mp h
      split at h
      next => exact ih h
      next hfree =>
        obtain rfl := Except.ok.inj h
        exact ⟨hfree, _, formatted_eq_ok.mp hother⟩

theorem mergeAttribute_spec (h : mergeAttribute provider key value existing = .ok merged) :
    Extends existing merged ∧ Carries merged key value := by
  rw [mergeAttribute] at h
  split at h
  next halias =>
    rw [Carries, if_pos halias]
    split at h
    next hhas =>
      obtain rfl := Except.ok.inj h
      exact ⟨.refl _, hasAlias_iff.mp hhas⟩
    next =>
      obtain ⟨other, hother, h⟩ := bind_eq_ok.mp h
      obtain ⟨hfree, _, hname⟩ := freeAlias_spec hother
      refine ⟨withAttribute_extends h fun old ho => ?_, other, startsWith_numberedAlias hname, withAttribute_self h⟩
      rw [Std.ExtTreeMap.getElem?_eq_none hfree] at ho
      cases ho
  next halias =>
    rw [Carries, if_neg halias]
    obtain ⟨written, hwritten, h⟩ := bind_eq_ok.mp h
    obtain ⟨hsame, h⟩ := unit_bind_eq_ok.mp h
    obtain rfl := Except.ok.inj h
    refine ⟨withAttribute_extends hwritten fun old ho => ?_, withAttribute_self hwritten⟩
    by_contra hne
    refine throwIf_eq_ok.mp hsame ?_
    rw [ho]
    exact decide_eq_true hne

theorem mergeAttributes_spec {entries : List (Text × Text)}
    (h : mergeAttributes provider entries existing = .ok merged) :
    Extends existing merged ∧ ∀ entry ∈ entries, Carries merged entry.1 entry.2 := by
  induction entries generalizing existing with
  | nil =>
      obtain rfl := Except.ok.inj h
      exact ⟨.refl _, fun _ h => absurd h List.not_mem_nil⟩
  | cons entry rest ih =>
      rw [mergeAttributes] at h
      obtain ⟨first, hfirst, h⟩ := bind_eq_ok.mp h
      obtain ⟨hextends, hcarries⟩ := mergeAttribute_spec hfirst
      obtain ⟨hextends', hcarries'⟩ := ih h
      refine ⟨hextends.trans hextends', List.forall_mem_cons.mpr ⟨hextends'.carries hcarries, hcarries'⟩⟩

/-- Merging keeps every attribute there is, and adds those of the other mention. -/
theorem mergeNode_spec (h : mergeNode existing incoming provider = .ok merged) :
    Extends existing merged ∧ (incoming.repository = existing.repository ∧ incoming.branch = existing.branch) ∧
      ∀ key value, incoming.attributes[key]? = some value → Carries merged key value := by
  rw [mergeNode] at h
  obtain ⟨hsame, h⟩ := unit_bind_eq_ok.mp h
  have hequal := throwIf_eq_ok.mp hsame
  simp only [not_or, ne_eq, not_not] at hequal
  obtain ⟨hextends, hcarries⟩ := mergeAttributes_spec h
  refine ⟨hextends, ⟨hequal.2.2.1.symm, hequal.2.2.2.symm⟩, fun key value hk => ?_⟩
  exact hcarries (key, value) (Std.ExtTreeMap.mem_toList_iff_getElem?_eq_some.mpr hk)

theorem withAttribute_other (h : existing.withAttribute key value = .ok merged) {other : Text} (hne : other ≠ key) :
    merged.attributes[other]? = existing.attributes[other]? := by
  rw [(MemoryNode.withAttribute_eq_ok.mp h).1, getElem?_insert, if_neg hne]

theorem withAttributes_spec {entries : List (Text × Text)} (hkeys : (entries.map (·.1)).Nodup)
    (h : withAttributes entries node = .ok next) : SameShell node next ∧
      (∀ entry ∈ entries, next.attributes[entry.1]? = some entry.2) ∧
      ∀ other : Text, other ∉ entries.map (·.1) → next.attributes[other]? = node.attributes[other]? := by
  induction entries generalizing node with
  | nil =>
      obtain rfl := Except.ok.inj h
      exact ⟨.refl _, fun _ h => absurd h List.not_mem_nil, fun _ _ => rfl⟩
  | cons entry rest ih =>
      rw [withAttributes] at h
      obtain ⟨first, hfirst, h⟩ := bind_eq_ok.mp h
      obtain ⟨hnew, hrest⟩ := List.nodup_cons.mp hkeys
      obtain ⟨hshell, hset, hother⟩ := ih hrest h
      refine ⟨(withAttribute_shell hfirst).trans hshell, List.forall_mem_cons.mpr ⟨?_, hset⟩, fun other ho => ?_⟩
      · rw [hother _ hnew, withAttribute_self hfirst]
      · rw [List.map_cons, List.mem_cons, not_or] at ho
        rw [hother other ho.2, withAttribute_other hfirst ho.1]

theorem withAliases_spec {values : List Text} {index : Nat} (h : withAliases index values node = .ok next) :
    SameShell node next ∧
      (∀ i value, values[i]? = some value →
        ∃ key : Text, key.str = numberedAlias (index + i) ∧ next.attributes[key]? = some value) ∧
      ∀ other : Text, (∀ i < values.length, other.str ≠ numberedAlias (index + i)) →
        next.attributes[other]? = node.attributes[other]? := by
  induction values generalizing node index with
  | nil =>
      obtain rfl := Except.ok.inj h
      refine ⟨.refl _, fun i value hi => ?_, fun _ _ => rfl⟩
      cases hi
  | cons value rest ih =>
      rw [withAliases] at h
      obtain ⟨key, hkey, h⟩ := bind_eq_ok.mp h
      obtain ⟨first, hfirst, h⟩ := bind_eq_ok.mp h
      obtain ⟨hshell, hset, hother⟩ := ih h
      have hname : key.str = numberedAlias index := formatted_eq_ok.mp hkey
      refine ⟨(withAttribute_shell hfirst).trans hshell, fun i found hi => ?_, fun other ho => ?_⟩
      · cases i with
        | zero =>
            obtain rfl := Option.some.inj hi
            refine ⟨key, hname, ?_⟩
            rw [hother key fun i _ heq => ?_, withAttribute_self hfirst]
            have hindex := numberedAlias_injective (hname.symm.trans heq)
            omega
        | succ i =>
            obtain ⟨other, ho, hfound⟩ := hset i found hi
            refine ⟨other, ?_, hfound⟩
            rw [ho, Nat.add_assoc, Nat.add_comm 1]
      · have hne : other ≠ key := by
          rintro rfl
          exact ho 0 (Nat.succ_pos _) hname
        rw [hother other fun i hi => ?_, withAttribute_other hfirst hne]
        have hnot := ho (i + 1) (Nat.succ_lt_succ hi)
        rwa [Nat.add_comm i, ← Nat.add_assoc] at hnot

/-- What the attributes of a node are before the aliases are added. -/
def baseAttribute (provider : Text) (input : ExtractionInput) (mention : ExtractedEntity) (key : Text) : Option Text :=
  match mention.attributes[key]? with
  | some value => some value
  | none => if key = extractionSource then some input.source else if key = extractedBy then some provider else none

variable {mention : ExtractedEntity} {id : EntityId} {built : MemoryNode}

theorem buildNode_spec (h : buildNode mention id input provider = .ok built) :
    (built.id = id ∧ built.repository = input.repository ∧ built.branch = input.branch) ∧
      (∀ i value, mention.aliases.items[i]? = some value →
        ∃ key : Text, key.str = numberedAlias i ∧ built.attributes[key]? = some value) ∧
      ∀ key : Text, (∀ i < mention.aliases.items.length, key.str ≠ numberedAlias i) →
        built.attributes[key]? = baseAttribute provider input mention key := by
  rw [buildNode] at h
  obtain ⟨bare, hbare, h⟩ := bind_eq_ok.mp h
  obtain ⟨named, hnamed, h⟩ := bind_eq_ok.mp h
  obtain ⟨sourced, hsourced, h⟩ := bind_eq_ok.mp h
  obtain ⟨attributed, hattributed, h⟩ := bind_eq_ok.mp h
  obtain ⟨located, hlocated⟩ : ∃ located, located = input.branch.elim
    (input.repository.elim sourced sourced.inRepository)
    (input.repository.elim sourced sourced.inRepository).onBranch := ⟨_, rfl⟩
  rw [← hlocated] at hattributed
  obtain ⟨hshell, hset, hother⟩ := withAttributes_spec (nodup_keys _) hattributed
  obtain ⟨hshell', haliases, hother'⟩ := withAliases_spec h
  have hempty : bare = ⟨id, mention.kind, mention.label, none, none, ∅, by decide⟩ := by
    rw [MemoryNode.new] at hbare
    exact (Except.ok.inj (unit_bind_eq_ok.mp hbare).2).symm
  have hplain : sourced.id = id ∧ sourced.repository = none ∧ sourced.branch = none := by
    have hshell'' := (withAttribute_shell hnamed).trans (withAttribute_shell hsourced)
    rw [hshell''.id, hshell''.repository, hshell''.branch, hempty]
    exact ⟨rfl, rfl, rfl⟩
  have hlocation : located.id = id ∧ located.repository = input.repository ∧ located.branch = input.branch ∧
      located.attributes = sourced.attributes := by
    rw [hlocated]
    cases input.repository <;> cases input.branch <;> exact ⟨hplain.1, by first | rfl | exact hplain.2.1,
      by first | rfl | exact hplain.2.2, rfl⟩
  refine ⟨⟨?_, ?_, ?_⟩, fun i value hi => ?_, fun key hkey => ?_⟩
  · rw [hshell'.id, hshell.id, hlocation.1]
  · rw [hshell'.repository, hshell.repository, hlocation.2.1]
  · rw [hshell'.branch, hshell.branch, hlocation.2.2.1]
  · have hfound := haliases i value hi
    rwa [Nat.zero_add] at hfound
  · rw [hother' key fun i hi => by rw [Nat.zero_add]; exact hkey i hi, baseAttribute]
    cases hvalue : mention.attributes[key]? with
    | some value => exact hset (key, value) (Std.ExtTreeMap.mem_toList_iff_getElem?_eq_some.mpr hvalue)
    | none =>
        rw [hother key fun hmem => ?_, hlocation.2.2.2, (MemoryNode.withAttribute_eq_ok.mp hsourced).1, getElem?_insert,
          (MemoryNode.withAttribute_eq_ok.mp hnamed).1, getElem?_insert, hempty, Std.ExtTreeMap.getElem?_empty]
        obtain ⟨⟨other, value⟩, hentry, rfl⟩ := List.mem_map.mp hmem
        rw [Std.ExtTreeMap.mem_toList_iff_getElem?_eq_some.mp hentry] at hvalue
        cases hvalue

def Located (input : ExtractionInput) (id : EntityId) (node : MemoryNode) : Prop :=
  node.id = id ∧ node.repository = input.repository ∧ node.branch = input.branch

def Absorbs (provider : Text) (input : ExtractionInput) (mention : ExtractedEntity) (node : MemoryNode) : Prop :=
  ∃ built, buildNode mention node.id input provider = .ok built ∧
    ∀ key value : Text, built.attributes[key]? = some value → Carries node key value

theorem Extends.absorbs (h : Extends existing merged) (ha : Absorbs provider input mention existing) :
    Absorbs provider input mention merged := by
  obtain ⟨built, hbuilt, hcarries⟩ := ha
  refine ⟨built, ?_, fun key value hk => h.carries (hcarries key value hk)⟩
  rw [h.shell.id]
  exact hbuilt

theorem Extends.located (h : Extends existing merged) (hl : Located input id existing) : Located input id merged :=
  ⟨h.shell.id.trans hl.1, h.shell.repository.trans hl.2.1, h.shell.branch.trans hl.2.2⟩

inductive Held (provider : Text) (before : BTreeMap EntityId MemoryNode) (id : EntityId) (built : MemoryNode) :
    MemoryNode → Prop
  | fresh (missing : before[id]? = none) : Held provider before id built built
  | merged {existing node : MemoryNode} (found : before[id]? = some existing)
      (merge : mergeNode existing built provider = .ok node) : Held provider before id built node

inductive Creating (provider : Text) (input : ExtractionInput) : List (ExtractedEntity × LinkDecision) →
    BTreeMap EntityId MemoryNode → BTreeMap EntityId MemoryNode → Prop
  | done {created : BTreeMap EntityId MemoryNode} : Creating provider input [] created created
  | skipped {mention : ExtractedEntity} {link : LinkDecision} {rest : List (ExtractedEntity × LinkDecision)}
      {before after : BTreeMap EntityId MemoryNode} (method : link.method ≠ .created)
      (next : Creating provider input rest before after) :
      Creating provider input ((mention, link) :: rest) before after
  | created {mention : ExtractedEntity} {link : LinkDecision} {rest : List (ExtractedEntity × LinkDecision)}
      {before after : BTreeMap EntityId MemoryNode} {id : EntityId} {built node : MemoryNode}
      (method : link.method = .created) (entity : link.entityId = some id)
      (build : buildNode mention id input provider = .ok built) (held : Held provider before id built node)
      (next : Creating provider input rest (before.insert id node) after) :
      Creating provider input ((mention, link) :: rest) before after

theorem creating_of_createNodes {mentions : List (ExtractedEntity × LinkDecision)}
    {before after : BTreeMap EntityId MemoryNode} (h : createNodes provider input mentions before = .ok after) :
    Creating provider input mentions before after := by
  induction mentions generalizing before with
  | nil =>
      obtain rfl := Except.ok.inj h
      exact .done
  | cons first rest ih =>
      obtain ⟨mention, link⟩ := first
      rw [createNodes] at h
      split at h
      next hother => exact .skipped hother (ih h)
      next hcreated =>
        split at h
        next => cases h
        next id hid =>
          obtain ⟨built, hbuilt, h⟩ := bind_eq_ok.mp h
          cases hexisting : before[id]? with
          | some existing =>
              rw [hexisting] at h
              obtain ⟨node, hnode, h⟩ := bind_eq_ok.mp h
              exact .created (not_not.mp hcreated) hid hbuilt (.merged hexisting hnode) (ih h)
          | none =>
              rw [hexisting] at h
              obtain ⟨node, hnode, h⟩ := bind_eq_ok.mp h
              obtain rfl := Except.ok.inj hnode
              exact .created (not_not.mp hcreated) hid hbuilt (.fresh hexisting) (ih h)

structure Creates (provider : Text) (input : ExtractionInput) (mentions : List (ExtractedEntity × LinkDecision))
    (before after : BTreeMap EntityId MemoryNode) : Prop where
  kept : ∀ (id : EntityId) (node : MemoryNode), before[id]? = some node →
    ∃ next, after[id]? = some next ∧ Extends node next
  each : ∀ mention link, (mention, link) ∈ mentions → link.method = .created →
    ∃ id node, link.entityId = some id ∧ after[id]? = some node ∧ Absorbs provider input mention node
  origin : ∀ (id : EntityId) (node : MemoryNode), after[id]? = some node →
    before[id]?.isSome = true ∨ ∃ mention link, (mention, link) ∈ mentions ∧ link.method = .created ∧
      link.entityId = some id
  located : ∀ (id : EntityId) (node : MemoryNode), after[id]? = some node → Located input id node

theorem Held.spec {before : BTreeMap EntityId MemoryNode} {id : EntityId} {node : MemoryNode}
    (h : Held provider before id built node) (hbuilt : Located input id built)
    (hbefore : ∀ old, before[id]? = some old → Located input id old) :
    (∀ old, before[id]? = some old → Extends old node) ∧
      (∀ key value : Text, built.attributes[key]? = some value → Carries node key value) ∧ Located input id node := by
  cases h with
  | fresh hmissing =>
      refine ⟨fun old ho => ?_, fun key value => carries_self, hbuilt⟩
      rw [hmissing] at ho
      cases ho
  | merged hfound hmerge =>
      obtain ⟨hextends, -, hcarries⟩ := mergeNode_spec hmerge
      refine ⟨fun old ho => ?_, hcarries, hextends.located (hbefore _ hfound)⟩
      obtain rfl := Option.some.inj (hfound.symm.trans ho)
      exact hextends

theorem createNodes_spec {mentions : List (ExtractedEntity × LinkDecision)}
    {before after : BTreeMap EntityId MemoryNode}
    (hbefore : ∀ (id : EntityId) (node : MemoryNode), before[id]? = some node → Located input id node)
    (h : createNodes provider input mentions before = .ok after) : Creates provider input mentions before after := by
  have hrun := creating_of_createNodes h
  clear h
  induction hrun with
  | done =>
      refine ⟨fun id node hn => ⟨node, hn, .refl node⟩, fun _ _ h => absurd h List.not_mem_nil,
        fun id node hn => .inl ?_, hbefore⟩
      rw [hn]
      rfl
  | @skipped mention link rest before after hother _ ih =>
      obtain ⟨hkept, heach, horigin, hlocated⟩ := ih hbefore
      refine ⟨hkept, fun m l hmem hmethod => ?_, fun id node hn => ?_, hlocated⟩
      · obtain heq | hmem := List.mem_cons.mp hmem
        · obtain ⟨rfl, rfl⟩ := Prod.mk.inj heq
          exact absurd hmethod hother
        · exact heach m l hmem hmethod
      · refine (horigin id node hn).imp_right ?_
        rintro ⟨m, l, hmem, hl⟩
        exact ⟨m, l, List.mem_cons_of_mem _ hmem, hl⟩
  | @created mention link rest before after id built node hcreated hid hbuilt hheld _ ih =>
      obtain ⟨hold, hcarries, hlocated⟩ := hheld.spec (buildNode_spec hbuilt).1 (hbefore id)
      have hinsert : (before.insert id node)[id]? = some node := getElem?_insert_eq_some.mpr (.inl ⟨rfl, rfl⟩)
      obtain ⟨hkept, heach, horigin, hlast⟩ := ih fun other found hfound => by
        obtain ⟨rfl, rfl⟩ | ⟨-, hfound⟩ := getElem?_insert_eq_some.mp hfound
        · exact hlocated
        · exact hbefore other found hfound
      refine ⟨fun other found hfound => ?_, fun m l hmem hmethod => ?_, fun other found hfound => ?_, hlast⟩
      · by_cases heq : other = id
        · subst heq
          obtain ⟨last, hlast, hextends⟩ := hkept other node hinsert
          exact ⟨last, hlast, (hold found hfound).trans hextends⟩
        · exact hkept other found (getElem?_insert_eq_some.mpr (.inr ⟨heq, hfound⟩))
      · obtain heq | hmem := List.mem_cons.mp hmem
        · obtain ⟨rfl, rfl⟩ := Prod.mk.inj heq
          obtain ⟨last, hlast, hextends⟩ := hkept id node hinsert
          refine ⟨id, last, hid, hlast, hextends.absorbs ⟨built, ?_, hcarries⟩⟩
          rw [hlocated.1]
          exact hbuilt
        · exact heach m l hmem hmethod
      · obtain hin | ⟨m, l, hmem, hl⟩ := horigin other found hfound
        · rw [getElem?_insert] at hin
          split at hin
          next heq => exact .inr ⟨mention, link, List.mem_cons_self, hcreated, heq ▸ hid⟩
          next => exact .inl hin
        · exact .inr ⟨m, l, List.mem_cons_of_mem _ hmem, hl⟩

end WeavatrixMemory.Extraction.Merging
