import WeavatrixMemory.Extraction.Linking
import WeavatrixMemory.Extraction.Merging

namespace WeavatrixMemory.Extraction.Created

open Error Identity Domain Key Model Linker Engine Merging

variable {unicode : Unicode} {policy : LinkPolicy} {provider : Text} {input : ExtractionInput}
  {linker : EntityLinker} {fingerprint : String} {node : MemoryNode} {mention : ExtractedEntity} {id : EntityId}

theorem named_event {name : String} {eventType : Text} {payload : MemoryEvent} {event : NewEvent MemoryEvent}
    (h : (formatted name >>= fun text => TextId.new text >>= fun id => NewEvent.new id eventType input.occurredAt
      input.recordedAt input.agentId input.sessionId payload) = .ok event) :
    ∃ id : EventId, id.toString = name ∧ event =
      ⟨id, eventType, input.occurredAt, input.recordedAt, input.agentId, input.sessionId, none, none, payload⟩ := by
  obtain ⟨text, htext, h⟩ := bind_eq_ok.mp h
  obtain ⟨id, hid, h⟩ := bind_eq_ok.mp h
  obtain ⟨-, -, rfl⟩ := NewEvent.new_eq_ok.mp h
  refine ⟨id, ?_, rfl⟩
  rw [TextId.toString, TextId.text_of_new hid]
  exact formatted_eq_ok.mp htext

theorem nodeEvent_payload {event : NewEvent MemoryEvent} (h : nodeEvent provider input fingerprint node = .ok event) :
    event.payload = .nodeUpserted node := by
  obtain ⟨id, -, rfl⟩ := named_event h
  rfl

theorem factEvent_payload {fact : MemoryFact} {event : NewEvent MemoryEvent}
    (h : factEvent provider input fingerprint fact = .ok event) : event.payload = .factRecorded fact := by
  obtain ⟨id, -, rfl⟩ := named_event h
  rfl

theorem forall₂_nodeEvents {nodes : List MemoryNode} {events : List (NewEvent MemoryEvent)}
    (h : nodeEvents provider input fingerprint nodes = .ok events) :
    List.Forall₂ (fun node event => nodeEvent provider input fingerprint node = .ok event) nodes events := by
  induction nodes generalizing events with
  | nil =>
      obtain rfl := Except.ok.inj h
      exact .nil
  | cons node rest ih =>
      rw [nodeEvents] at h
      obtain ⟨event, hevent, h⟩ := bind_eq_ok.mp h
      obtain ⟨others, hothers, h⟩ := bind_eq_ok.mp h
      obtain rfl := Except.ok.inj h
      exact .cons hevent (ih hothers)

theorem nodeEvents_payloads {nodes : List MemoryNode} {events : List (NewEvent MemoryEvent)}
    (h : nodeEvents provider input fingerprint nodes = .ok events) :
    events.map (·.payload) = nodes.map .nodeUpserted := by
  have hall := forall₂_nodeEvents h
  clear h
  induction hall with
  | nil => rfl
  | cons hevent _ ih => rw [List.map_cons, List.map_cons, nodeEvent_payload hevent, ih]

theorem mentionLink_eq_ok {byMention : BTreeMap Text LinkDecision} {localId : Text} {decision : LinkDecision} :
    mentionLink byMention localId = .ok decision ↔ byMention[localId]? = some decision := by
  rw [mentionLink]
  cases byMention[localId]? <;> simp

/-- The runs of the loop over the relations that come to their end. -/
inductive Relating (provider : Text) (input : ExtractionInput) (fingerprint : String)
    (byMention : BTreeMap Text LinkDecision) :
    List ExtractedRelation → List (NewEvent MemoryEvent) → List RejectedRelation → Prop
  | done : Relating provider input fingerprint byMention [] [] []
  | recorded {relation : ExtractedRelation} {rest : List ExtractedRelation} {source target : LinkDecision}
      {sourceId targetId : EntityId} {fact : MemoryFact} {event : NewEvent MemoryEvent}
      {events : List (NewEvent MemoryEvent)} {rejected : List RejectedRelation}
      (source_link : byMention[relation.source]? = some source)
      (target_link : byMention[relation.target]? = some target)
      (source_id : source.entityId = some sourceId) (target_id : target.entityId = some targetId)
      (build : buildFact provider input fingerprint relation source target sourceId targetId = .ok fact)
      (propose : factEvent provider input fingerprint fact = .ok event)
      (next : Relating provider input fingerprint byMention rest events rejected) :
      Relating provider input fingerprint byMention (relation :: rest) (event :: events) rejected
  | rejected {relation : ExtractedRelation} {rest : List ExtractedRelation} {source target : LinkDecision}
      {events : List (NewEvent MemoryEvent)} {rejected : List RejectedRelation}
      (source_link : byMention[relation.source]? = some source)
      (target_link : byMention[relation.target]? = some target)
      (unlinked : source.entityId = none ∨ target.entityId = none)
      (next : Relating provider input fingerprint byMention rest events rejected) :
      Relating provider input fingerprint byMention (relation :: rest) events
        (rejectedRelation relation source target :: rejected)

theorem exists_ids {source target : Option EntityId} (h : ¬ (source = none ∨ target = none)) :
    ∃ sourceId targetId, source = some sourceId ∧ target = some targetId := by
  rw [not_or, ← ne_eq, ← ne_eq, Option.ne_none_iff_exists', Option.ne_none_iff_exists'] at h
  obtain ⟨⟨sourceId, hs⟩, targetId, ht⟩ := h
  exact ⟨sourceId, targetId, hs, ht⟩

theorem relationEvents_eq_ok {byMention : BTreeMap Text LinkDecision} {relations : List ExtractedRelation}
    {events : List (NewEvent MemoryEvent)} {rejected : List RejectedRelation} :
    relationEvents provider input fingerprint byMention relations = .ok (events, rejected) ↔
      Relating provider input fingerprint byMention relations events rejected := by
  constructor
  · intro h
    induction relations generalizing events rejected with
    | nil =>
        obtain ⟨rfl, rfl⟩ := Prod.mk.inj (Except.ok.inj h)
        exact .done
    | cons relation rest ih =>
        rw [relationEvents] at h
        obtain ⟨source, hsource, h⟩ := bind_eq_ok.mp h
        obtain ⟨target, htarget, h⟩ := bind_eq_ok.mp h
        rw [mentionLink_eq_ok] at hsource htarget
        split at h
        next sourceId targetId hs ht =>
          obtain ⟨fact, hfact, h⟩ := bind_eq_ok.mp h
          obtain ⟨event, hevent, h⟩ := bind_eq_ok.mp h
          obtain ⟨⟨others, later⟩, hothers, h⟩ := bind_eq_ok.mp h
          obtain ⟨rfl, rfl⟩ := Prod.mk.inj (Except.ok.inj h)
          exact .recorded hsource htarget hs ht hfact hevent (ih hothers)
        next hnot =>
          obtain ⟨⟨others, later⟩, hothers, h⟩ := bind_eq_ok.mp h
          obtain ⟨rfl, rfl⟩ := Prod.mk.inj (Except.ok.inj h)
          refine .rejected hsource htarget ?_ (ih hothers)
          by_contra hboth
          obtain ⟨sourceId, targetId, hs, ht⟩ := exists_ids hboth
          exact hnot sourceId targetId hs ht
  · intro h
    induction h with
    | done => rfl
    | recorded hsource htarget hs ht hfact hevent _ ih =>
        rw [relationEvents, mentionLink_eq_ok.mpr hsource, ok_bind, mentionLink_eq_ok.mpr htarget, ok_bind, hs, ht]
        dsimp only
        rw [hfact, ok_bind, hevent, ok_bind, ih, ok_bind]
    | rejected hsource htarget hnone _ ih =>
        rw [relationEvents, mentionLink_eq_ok.mpr hsource, ok_bind, mentionLink_eq_ok.mpr htarget, ok_bind]
        split
        next hs ht =>
          rw [hs, ht] at hnone
          obtain hnone | hnone := hnone <;> cases hnone
        next => rw [ih, ok_bind]

theorem Relating.payloads {byMention : BTreeMap Text LinkDecision} {relations : List ExtractedRelation}
    {events : List (NewEvent MemoryEvent)} {rejected : List RejectedRelation}
    (h : Relating provider input fingerprint byMention relations events rejected) :
    ∀ event ∈ events, ∃ fact, event.payload = .factRecorded fact := by
  induction h with
  | done => exact fun _ h => absurd h List.not_mem_nil
  | recorded _ _ _ _ _ hevent _ ih => exact List.forall_mem_cons.mpr ⟨⟨_, factEvent_payload hevent⟩, ih⟩
  | rejected _ _ _ _ ih => exact ih

theorem linkEntities_spec {entities : List ExtractedEntity} {links : List LinkDecision}
    (h : linkEntities unicode linker input policy entities = .ok links) {mention : ExtractedEntity}
    {decision : LinkDecision} : (mention, decision) ∈ entities.zip links ↔
      mention ∈ entities ∧ link unicode linker mention input policy = .ok decision := by
  induction entities generalizing links with
  | nil => simp
  | cons entity rest ih =>
      rw [linkEntities] at h
      obtain ⟨first, hfirst, h⟩ := bind_eq_ok.mp h
      obtain ⟨others, hothers, h⟩ := bind_eq_ok.mp h
      obtain rfl := Except.ok.inj h
      rw [List.zip_cons_cons, List.mem_cons, List.mem_cons, ih hothers, Prod.mk.injEq]
      constructor
      · rintro (⟨rfl, rfl⟩ | ⟨hmem, hlink⟩)
        · exact ⟨.inl rfl, hfirst⟩
        · exact ⟨.inr hmem, hlink⟩
      · rintro ⟨rfl | hmem, hlink⟩
        · exact .inl ⟨rfl, Except.ok.inj (hlink.symm.trans hfirst)⟩
        · exact .inr ⟨hmem, hlink⟩

theorem linkEntities_length {entities : List ExtractedEntity} {links : List LinkDecision}
    (h : linkEntities unicode linker input policy entities = .ok links) : links.length = entities.length := by
  induction entities generalizing links with
  | nil =>
      obtain rfl := Except.ok.inj h
      rfl
  | cons entity rest ih =>
      rw [linkEntities] at h
      obtain ⟨first, -, h⟩ := bind_eq_ok.mp h
      obtain ⟨others, hothers, h⟩ := bind_eq_ok.mp h
      obtain rfl := Except.ok.inj h
      rw [List.length_cons, List.length_cons, ih hothers]

theorem exists_link {entities : List ExtractedEntity} {links : List LinkDecision}
    (h : linkEntities unicode linker input policy entities = .ok links) (hmem : mention ∈ entities) :
    ∃ decision, link unicode linker mention input policy = .ok decision := by
  induction entities generalizing links with
  | nil => cases hmem
  | cons entity rest ih =>
      rw [linkEntities] at h
      obtain ⟨first, hfirst, h⟩ := bind_eq_ok.mp h
      obtain ⟨others, hothers, -⟩ := bind_eq_ok.mp h
      obtain rfl | hmem := List.mem_cons.mp hmem
      · exact ⟨first, hfirst⟩
      · exact ih hothers hmem

def Upserts (p : ExtractionPlan) (node : MemoryNode) : Prop :=
  ∃ event ∈ p.events.items, event.payload = .nodeUpserted node

def TurnedInto (unicode : Unicode) (linker : EntityLinker) (input : ExtractionInput) (policy : LinkPolicy)
    (mention : ExtractedEntity) (id : EntityId) : Prop :=
  ∃ decision, link unicode linker mention input policy = .ok decision ∧ decision.method = .created ∧
    decision.entityId = some id

structure PlansNodes (unicode : Unicode) (policy : LinkPolicy) (provider : Text) (input : ExtractionInput)
    (linker : EntityLinker) (output : ExtractionOutput) (p : ExtractionPlan) : Prop where
  absorbed : ∀ mention ∈ output.entities.items, ∀ id, TurnedInto unicode linker input policy mention id →
    ∃ node, Upserts p node ∧ node.id = id ∧ Absorbs provider input mention node
  origin : ∀ node, Upserts p node →
    ∃ mention ∈ output.entities.items, TurnedInto unicode linker input policy mention node.id
  located : ∀ node, Upserts p node → node.repository = input.repository ∧ node.branch = input.branch
  distinct : ∀ node other, Upserts p node → Upserts p other → node.id = other.id → node = other

theorem buildPlan_created {output : ExtractionOutput} {p : ExtractionPlan}
    (h : buildPlan unicode policy provider input linker output = .ok p) :
    ∃ links created, linkEntities unicode linker input policy output.entities.items = .ok links ∧
      createNodes provider input (output.entities.items.zip links) ∅ = .ok created ∧
      ∀ node, Upserts p node ↔ ∃ id : EntityId, created[id]? = some node := by
  rw [buildPlan] at h
  obtain ⟨links, hlinks, h⟩ := bind_eq_ok.mp h
  obtain ⟨created, hcreated, h⟩ := bind_eq_ok.mp h
  obtain ⟨nodes, hnodes, h⟩ := bind_eq_ok.mp h
  obtain ⟨⟨facts, rejected⟩, hfacts, h⟩ := bind_eq_ok.mp h
  obtain ⟨events, hevents, h⟩ := bind_eq_ok.mp h
  obtain rfl := Except.ok.inj h
  refine ⟨links, created, hlinks, hcreated, fun node => ?_⟩
  have hpayloads := nodeEvents_payloads hnodes
  rw [Upserts, ← mem_valuesOf, Vec.of_eq_ok.mp hevents]
  constructor
  · rintro ⟨event, hmem, hpayload⟩
    obtain hmem | hmem := List.mem_append.mp hmem
    · have hin := List.mem_map_of_mem (f := (·.payload)) hmem
      rw [hpayloads] at hin
      obtain ⟨other, ho, heq⟩ := List.mem_map.mp hin
      rw [hpayload] at heq
      obtain rfl := MemoryEvent.nodeUpserted.inj heq
      exact ho
    · obtain ⟨fact, hfact⟩ := (relationEvents_eq_ok.mp hfacts).payloads event hmem
      rw [hpayload] at hfact
      cases hfact
  · intro hmem
    have hin := List.mem_map_of_mem (f := MemoryEvent.nodeUpserted) hmem
    rw [← hpayloads] at hin
    obtain ⟨event, hevent, hpayload⟩ := List.mem_map.mp hin
    exact ⟨event, List.mem_append_left _ hevent, hpayload⟩

theorem buildPlan_nodes {output : ExtractionOutput} {p : ExtractionPlan}
    (h : buildPlan unicode policy provider input linker output = .ok p) :
    PlansNodes unicode policy provider input linker output p := by
  obtain ⟨links, created, hlinks, hcreated, hupserts⟩ := buildPlan_created h
  have hspec := createNodes_spec (fun id node hn => by
    rw [Std.ExtTreeMap.getElem?_empty] at hn
    cases hn) hcreated
  refine ⟨fun mention hmem id hturned => ?_, fun node hn => ?_, fun node hn => ?_, fun node other hn ho hid => ?_⟩
  · obtain ⟨decision, hlink, hmethod, hid⟩ := hturned
    obtain ⟨other, node, ho, hnode, habsorbs⟩ := hspec.each mention decision
      ((linkEntities_spec hlinks).mpr ⟨hmem, hlink⟩) hmethod
    obtain rfl := Option.some.inj (hid.symm.trans ho)
    exact ⟨node, (hupserts node).mpr ⟨id, hnode⟩, (hspec.located id node hnode).1, habsorbs⟩
  · obtain ⟨id, hnode⟩ := (hupserts node).mp hn
    obtain hin | ⟨mention, decision, hmem, hmethod, hid⟩ := hspec.origin id node hnode
    · rw [Std.ExtTreeMap.getElem?_empty] at hin
      cases hin
    · obtain ⟨hentity, hlink⟩ := (linkEntities_spec hlinks).mp hmem
      rw [(hspec.located id node hnode).1]
      exact ⟨mention, hentity, decision, hlink, hmethod, hid⟩
  · obtain ⟨id, hnode⟩ := (hupserts node).mp hn
    exact (hspec.located id node hnode).2
  · obtain ⟨i, hi⟩ := (hupserts node).mp hn
    obtain ⟨j, hj⟩ := (hupserts other).mp ho
    rw [(hspec.located i node hi).1, (hspec.located j other hj).1] at hid
    subst hid
    exact Option.some.inj (hi.symm.trans hj)

end WeavatrixMemory.Extraction.Created
