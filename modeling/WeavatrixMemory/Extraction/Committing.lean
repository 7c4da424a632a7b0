import WeavatrixMemory.Extraction.Plans
import WeavatrixMemory.Extraction.Provenance
import WeavatrixMemory.Library.Pairings
import WeavatrixMemory.Projection.Batches
import WeavatrixMemory.Snapshot.Routes
import WeavatrixMemory.Store.Commit

namespace WeavatrixMemory.Extraction.Committing

open Error Identity Domain Key Model Linker Engine Catalog Linking Merging Created Validity Recording Plans Provenance
open Projection.State Projection.Memory Projection.Invariant Projection.Batches Projection.History
open Store.InMemory Store.EventLog Store.Commit Snapshot.Routes Logs Pairings

variable {unicode : Unicode} {policy : LinkPolicy} {provider : Text} {input : ExtractionInput} {linker : EntityLinker}
  {nodes : List MemoryNode} {output : ExtractionOutput} {p : ExtractionPlan}

def mentionsOf (output : ExtractionOutput) (p : ExtractionPlan) : List (ExtractedEntity × LinkDecision) :=
  output.entities.items.zip p.links

def factsOf (p : ExtractionPlan) : List MemoryFact := p.events.items.flatMap fun event => recorded event.payload

/-- Every relation is in the plan once: as a fact between the entities that it is linked to, or, if the linker has
left an endpoint open, as a rejected relation. -/
structure Accounts (provider : Text) (input : ExtractionInput) (output : ExtractionOutput) (p : ExtractionPlan) :
    Prop where
  once : (output.relations.items.map (·.localId)).Nodup
  recorded : List.Forall₂ (Between provider input (mentionsOf output p))
    (output.relations.items.filter fun relation => ¬ LeftOpen (mentionsOf output p) relation) (factsOf p)
  rejected : List.Forall₂ (Rejects (mentionsOf output p))
    (output.relations.items.filter fun relation => LeftOpen (mentionsOf output p) relation) p.rejectedRelations
  facts : ((factsOf p).map (·.id)).Nodup

def eventTuple (provider : Text) (input : ExtractionInput) : MemoryEvent → List String
  | .nodeUpserted node => nodeTuple provider input (fingerprintOf input) node
  | .factRecorded fact => factTuple provider input (fingerprintOf input) fact
  | .factRetracted .. => []

def relationTuples (provider : Text) (input : ExtractionInput) (byMention : BTreeMap Text LinkDecision)
    (relations : List ExtractedRelation) : List (List String) :=
  relations.filterMap fun relation =>
    match byMention[relation.source]?.bind (·.entityId), byMention[relation.target]?.bind (·.entityId) with
    | some source, some target => some (relationTuple provider input (fingerprintOf input) relation source target)
    | _, _ => none

def hashedTuples (provider : Text) (input : ExtractionInput) (output : ExtractionOutput) (p : ExtractionPlan) :
    List (List String) :=
  p.events.items.map (fun event => eventTuple provider input event.payload) ++
    relationTuples provider input (mentionMap (mentionsOf output p)) output.relations.items

structure ProposesNode (provider : Text) (input : ExtractionInput) (node : MemoryNode) (event : NewEvent MemoryEvent) :
    Prop where
  payload : event.payload = .nodeUpserted node
  stamped : Stamped input event
  valid : node.validate = .ok ()
  name : event.id.toString = "event:auto:node:" ++
    hex (stableHash (nodeTuple provider input (fingerprintOf input) node))

theorem nodeEvents_proposed {created : List MemoryNode} {events : List (NewEvent MemoryEvent)}
    (hvalid : ∀ node ∈ created, node.validate = .ok ())
    (h : nodeEvents provider input (fingerprintOf input) created = .ok events) :
    List.Forall₂ (ProposesNode provider input) created events := by
  refine ((List.forall₂_and_left created events).mpr ⟨hvalid, forall₂_nodeEvents h⟩).imp fun node event hboth => ?_
  obtain ⟨hnode, hevent⟩ := hboth
  obtain ⟨hstamped, hname⟩ := nodeEvent_stamped hevent
  exact ⟨nodeEvent_payload hevent, hstamped, hnode, hname⟩

structure MadeOf (nodes : List MemoryNode) (provider : Text) (input : ExtractionInput) (output : ExtractionOutput)
    (p : ExtractionPlan) (created : List MemoryNode) (first second : List (NewEvent MemoryEvent)) : Prop where
  events : p.events.items = first ++ second
  mentions : MapOf (mentionsOf output p) (mentionMap (mentionsOf output p))
  nodeEvents : List.Forall₂ (ProposesNode provider input) created first
  distinct : (created.map (·.id)).Nodup
  factEvents : List.Forall₂
    (fun relation event => ∃ fact, Proposes provider input (mentionsOf output p) relation event fact)
    (output.relations.items.filter fun relation => ¬ LeftOpen (mentionsOf output p) relation) second
  rejected : List.Forall₂ (Rejects (mentionsOf output p))
    (output.relations.items.filter fun relation => LeftOpen (mentionsOf output p) relation) p.rejectedRelations
  known : ∀ mention ∈ mentionsOf output p, ∀ id, mention.2.entityId = some id →
    id ∈ nodes.map (·.id) ∨ id ∈ created.map (·.id)

theorem buildPlan_madeOf (hinput : SoundInput input) (houtput : SoundOutput output input)
    (hc : Catalogued unicode nodes linker) (h : buildPlan unicode policy provider input linker output = .ok p) :
    ∃ created first second, MadeOf nodes provider input output p created first second := by
  rw [buildPlan] at h
  obtain ⟨links, hlinks, h⟩ := bind_eq_ok.mp h
  obtain ⟨created, hcreated, h⟩ := bind_eq_ok.mp h
  obtain ⟨first, hfirst, h⟩ := bind_eq_ok.mp h
  obtain ⟨⟨second, rejected⟩, hsecond, h⟩ := bind_eq_ok.mp h
  obtain ⟨events, hevents, h⟩ := bind_eq_ok.mp h
  obtain rfl := Except.ok.inj h
  have hmentions : (output.entities.items.zip links).map (·.1) = output.entities.items :=
    List.map_fst_zip (linkEntities_length hlinks).ge
  have hnodup : ((output.entities.items.zip links).map (·.1.localId)).Nodup := by
    have hids := houtput.mentions
    rwa [← hmentions, List.map_map] at hids
  have hmap := mentionMap_mapOf hnodup
  have hdecided : ∀ mention ∈ output.entities.items.zip links, Decided nodes mention.2 := fun mention hm =>
    link_decided hc ((linkEntities_spec hlinks).mp hm).2
  have hvalid := createNodes_valid hinput (fun mention hm => houtput.keys mention.1 (List.of_mem_zip hm).1)
    (fun id node hn => by
      rw [Std.ExtTreeMap.getElem?_empty] at hn
      cases hn) hcreated
  have hspec := createNodes_spec (fun id node hn => by
    rw [Std.ExtTreeMap.getElem?_empty] at hn
    cases hn) hcreated
  obtain ⟨hfacts, hrejected⟩ := relationEvents_spec hinput hmap hdecided hsecond
  refine ⟨valuesOf created, first, second, Vec.of_eq_ok.mp hevents, hmap,
    nodeEvents_proposed (fun node hn => ?_) hfirst,
    nodup_valuesOf fun id node hn => (hspec.located id node hn).1, hfacts, hrejected, fun mention hm id hid => ?_⟩
  · obtain ⟨id, hid⟩ := mem_valuesOf.mp hn
    exact hvalid id node hid
  · obtain hmethod | hknown := (hdecided mention hm).known id hid
    · obtain ⟨other, node, hother, hnode, -⟩ := hspec.each mention.1 mention.2 hm hmethod
      obtain rfl := Option.some.inj (hid.symm.trans hother)
      refine .inr (List.mem_map.mpr ⟨node, mem_valuesOf.mpr ⟨id, hnode⟩, ?_⟩)
      exact (hspec.located id node hnode).1
    · exact .inl hknown

section Made

variable {created : List MemoryNode} {first second : List (NewEvent MemoryEvent)} {facts : List MemoryFact}

theorem event_hashed {event : NewEvent MemoryEvent} (h : event ∈ p.events.items) :
    eventTuple provider input event.payload ∈ hashedTuples provider input output p :=
  List.mem_append_left _ (List.mem_map_of_mem h)

theorem node_hashed (h : MadeOf nodes provider input output p created first second) {node : MemoryNode}
    (hn : node ∈ created) :
    nodeTuple provider input (fingerprintOf input) node ∈ hashedTuples provider input output p := by
  obtain ⟨event, he, hproposes⟩ := exists_right h.nodeEvents node hn
  have hhashed := @event_hashed provider input output p event (h.events ▸ List.mem_append_left _ he)
  rwa [hproposes.payload, eventTuple] at hhashed

theorem nodeEvents_nodup (h : MadeOf nodes provider input output p created first second)
    (hhash : CollisionFree (hashedTuples provider input output p)) : (first.map (·.id)).Nodup := by
  refine nodup_map h.nodeEvents (fun node hn other ho event event' he he' hid => ?_) h.distinct
  have hname := congrArg TextId.toString hid
  rw [he.name, he'.name] at hname
  have htuple := hhash.name_inj _ (node_hashed h hn) (node_hashed h ho) hname
  simp only [nodeTuple, List.cons.injEq, true_and, and_true] at htuple
  exact TextId.ext (Text.ext htuple)

theorem relation_hashed (hmap : MapOf (mentionsOf output p) (mentionMap (mentionsOf output p)))
    {relation : ExtractedRelation} (hr : relation ∈ output.relations.items) {fact : MemoryFact}
    (h : Between provider input (mentionsOf output p) relation fact) :
    relationTuple provider input (fingerprintOf input) relation fact.source fact.target ∈
      hashedTuples provider input output p := by
  obtain ⟨⟨source, hs, hsource, hsourceId⟩, ⟨target, ht, htarget, htargetId⟩, -⟩ := h
  refine List.mem_append_right _ (List.mem_filterMap.mpr ⟨relation, hr, ?_⟩)
  rw [(hmap relation.source source.2).mpr ⟨source, hs, hsource, rfl⟩,
    (hmap relation.target target.2).mpr ⟨target, ht, htarget, rfl⟩, Option.bind_some, Option.bind_some, hsourceId,
      htargetId]

structure Records (provider : Text) (input : ExtractionInput) (output : ExtractionOutput) (p : ExtractionPlan)
    (facts : List MemoryFact) (second : List (NewEvent MemoryEvent)) : Prop where
  relations : List.Forall₂ (Between provider input (mentionsOf output p))
    (output.relations.items.filter fun relation => ¬ LeftOpen (mentionsOf output p) relation) facts
  events : List.Forall₂ (fun fact event => ∃ relation,
    Proposes provider input (mentionsOf output p) relation event fact)
    facts second

theorem exists_records (h : MadeOf nodes provider input output p created first second) :
    ∃ facts, Records provider input output p facts second := by
  obtain ⟨facts, hrelations, hevents⟩ := exists_middle (t := fun relation fact event =>
    Proposes provider input (mentionsOf output p) relation event fact) h.factEvents
  refine ⟨facts, hrelations.imp ?_, hevents.imp ?_⟩
  · rintro relation fact ⟨event, -, hproposes⟩
    exact hproposes.between
  · rintro fact event ⟨relation, -, hproposes⟩
    exact ⟨relation, hproposes⟩

theorem facts_nodup (h : MadeOf nodes provider input output p created first second)
    (hrecords : Records provider input output p facts second) (houtput : SoundOutput output input)
    (hhash : CollisionFree (hashedTuples provider input output p)) : (facts.map (·.id)).Nodup := by
  refine nodup_map hrecords.relations (fun relation hr other ho fact fact' hf hf' hid => ?_)
    (houtput.relations.sublist (List.filter_sublist.map _))
  have hname := congrArg TextId.toString hid
  rw [hf.recorded.name, hf'.recorded.name] at hname
  have htuple := hhash.name_inj _ (relation_hashed h.mentions (List.mem_of_mem_filter hr) hf)
    (relation_hashed h.mentions (List.mem_of_mem_filter ho) hf') hname
  simp only [relationTuple, List.cons.injEq, true_and] at htuple
  exact Text.ext htuple.1

theorem fact_hashed (h : MadeOf nodes provider input output p created first second)
    (hrecords : Records provider input output p facts second) {fact : MemoryFact} (hf : fact ∈ facts) :
    factTuple provider input (fingerprintOf input) fact ∈ hashedTuples provider input output p := by
  obtain ⟨event, he, relation, hproposes⟩ := exists_right hrecords.events fact hf
  have hhashed := @event_hashed provider input output p event (h.events ▸ List.mem_append_right _ he)
  rwa [hproposes.payload, eventTuple] at hhashed

theorem factEvents_nodup (h : MadeOf nodes provider input output p created first second)
    (hrecords : Records provider input output p facts second) (houtput : SoundOutput output input)
    (hhash : CollisionFree (hashedTuples provider input output p)) : (second.map (·.id)).Nodup := by
  refine nodup_map hrecords.events (fun fact hf other ho event event' he he' hid => ?_)
    (facts_nodup h hrecords houtput hhash)
  obtain ⟨_, he⟩ := he
  obtain ⟨_, he'⟩ := he'
  have hname := congrArg TextId.toString hid
  rw [he.name, he'.name] at hname
  have htuple := hhash.name_inj _ (fact_hashed h hrecords hf) (fact_hashed h hrecords ho) hname
  simp only [factTuple, List.cons.injEq, true_and, and_true] at htuple
  exact TextId.ext (Text.ext htuple)

theorem nodeName_ne_factName (a b : String) : "event:auto:node:" ++ a ≠ "event:auto:fact:" ++ b := by
  intro h
  have hstem := congrArg (fun s => s.toList.take 16) h
  simp only [String.toList_append] at hstem
  rw [List.take_left' (by rfl), List.take_left' (by rfl)] at hstem
  exact absurd hstem (by decide)

theorem events_nodup (h : MadeOf nodes provider input output p created first second)
    (hrecords : Records provider input output p facts second) (houtput : SoundOutput output input)
    (hhash : CollisionFree (hashedTuples provider input output p)) : (p.events.items.map (·.id)).Nodup := by
  rw [h.events, List.map_append, List.nodup_append]
  refine ⟨nodeEvents_nodup h hhash, factEvents_nodup h hrecords houtput hhash, fun id hid other ho hsame => ?_⟩
  obtain ⟨event, he, rfl⟩ := List.mem_map.mp hid
  obtain ⟨event', he', rfl⟩ := List.mem_map.mp ho
  obtain ⟨node, -, hnode⟩ := exists_left h.nodeEvents event he
  obtain ⟨fact, -, relation, hfact⟩ := exists_left hrecords.events event' he'
  have hname := congrArg TextId.toString hsame
  rw [hnode.name, hfact.name] at hname
  exact nodeName_ne_factName _ _ hname

theorem factsOf_eq (h : MadeOf nodes provider input output p created first second)
    (hrecords : Records provider input output p facts second) : factsOf p = facts := by
  rw [factsOf, h.events, List.flatMap_append]
  have hfirst : first.flatMap (fun event => recorded event.payload) = [] := by
    rw [List.flatMap_eq_nil_iff]
    intro event he
    obtain ⟨node, -, hnode⟩ := exists_left h.nodeEvents event he
    rw [hnode.payload]
    rfl
  have hsecond := hrecords.events
  rw [hfirst, List.nil_append]
  clear * - hsecond
  induction hsecond with
  | nil => rfl
  | cons hproposes _ ih =>
      obtain ⟨relation, hproposes⟩ := hproposes
      rw [List.flatMap_cons, hproposes.payload, recorded, ih, List.singleton_append]

theorem accounts (h : MadeOf nodes provider input output p created first second)
    (hrecords : Records provider input output p facts second) (houtput : SoundOutput output input)
    (hhash : CollisionFree (hashedTuples provider input output p)) : Accounts provider input output p where
  once := houtput.relations
  recorded := by
    rw [factsOf_eq h hrecords]
    exact hrecords.relations
  rejected := h.rejected
  facts := by
    rw [factsOf_eq h hrecords]
    exact facts_nodup h hrecords houtput hhash

theorem exists_halves (h : MadeOf nodes provider input output p created first second)
    (hrecords : Records provider input output p facts second) {committed : List (StoredEvent MemoryEvent)}
    (hproposed : committed.map proposal = p.events.items) :
    ∃ early late, committed = early ++ late ∧ List.Forall₂ Upserting created early ∧
      List.Forall₂ Recording facts late := by
  rw [h.events, List.map_eq_append_iff] at hproposed
  obtain ⟨early, late, rfl, rfl, rfl⟩ := hproposed
  refine ⟨early, late, rfl, ?_, ?_⟩
  · refine (List.forall₂_map_right_iff.mp h.nodeEvents).imp fun node event hnode => ?_
    exact ⟨hnode.payload, hnode.stamped.eventType, hnode.valid⟩
  · refine (List.forall₂_map_right_iff.mp hrecords.events).imp fun fact event hfact => ?_
    obtain ⟨relation, hpayload, hstamped, ⟨-, -, hrecorded⟩, -⟩ := hfact
    exact ⟨hpayload, hstamped.eventType, hrecorded.recordedAt.trans hstamped.recordedAt.symm,
      hrecorded.agent.trans hstamped.agent.symm, hrecorded.session.trans hstamped.session.symm, hrecorded.valid,
      hrecorded.supersedes⟩

/-- The events of a plan, once they are in the log, can all be applied. -/
theorem applyEach_committed (h : MadeOf nodes provider input output p created first second)
    (hrecords : Records provider input output p facts second) (houtput : SoundOutput output input)
    (hhash : CollisionFree (hashedTuples provider input output p)) {held : MemoryProjection} (hheld : Valid held)
    (hnodes : ∀ id ∈ nodes.map (·.id), id ∈ held.nodes.map NodeHistory.id)
    (hnew : ∀ fact ∈ facts, fact.id ∉ held.facts.map MemoryFact.id) {committed : List (StoredEvent MemoryEvent)}
    (hproposed : committed.map proposal = p.events.items) : ∃ after, applyEach committed held = .ok after := by
  obtain ⟨early, late, rfl, hearly, hlate⟩ := exists_halves h hrecords hproposed
  obtain ⟨middle, hmiddle, hvalid, hsame, hids⟩ := applyEach_nodes hearly hheld
  have hknown {id : EntityId} {localId : Text} (hid : ∃ mention ∈ mentionsOf output p, mention.1.localId = localId ∧
      mention.2.entityId = some id) : id ∈ middle.nodes.map NodeHistory.id := by
    obtain ⟨mention, hm, -, hid⟩ := hid
    exact (hids id).mpr ((h.known mention hm id hid).imp_left (hnodes id))
  obtain ⟨last, hlast, -, -⟩ := applyEach_facts hlate hvalid (fun fact hf => by
    obtain ⟨relation, -, hbetween⟩ := exists_left hrecords.relations fact hf
    exact ⟨hknown hbetween.source, hknown hbetween.target⟩) (by rwa [hsame]) (facts_nodup h hrecords houtput hhash)
  exact ⟨last, (applyEach_append hmiddle).trans hlast⟩

end Made

theorem planWithLinker_input {provider : ExtractionProvider}
    (h : planWithLinker unicode policy provider input linker = .ok p) : SoundInput input := by
  rw [planWithLinker] at h
  exact soundInput_of_validate (unit_bind_eq_ok.mp h).1

theorem view_known {held : MemoryProjection} (hheld : Valid held) (clock : ProjectionClock) :
    ∀ id ∈ (view held clock).nodes.map (·.id), id ∈ held.nodes.map NodeHistory.id := by
  intro id hid
  rw [view_eq hheld, mem_visibleNodes_ids hheld] at hid
  obtain ⟨history, hh, rfl, -⟩ := hid
  exact List.mem_map_of_mem hh

/-- A plan whose identifiers are new is committed whole, and every relation is accounted for in it. -/
theorem plan_commits (unicode : Unicode) (policy : LinkPolicy) (provider : ExtractionProvider) (input : ExtractionInput)
    (handed : List MemoryFact) (held : MemoryProjection) (hheld : Obtained handed held)
    (log : Vec (StoredEvent MemoryEvent)) (hlog : Lawful Continues log.items) (hof : held.facts ⊆ recordedIn log.items)
    (clock : ProjectionClock) (linker : EntityLinker) (hlinker : fromView unicode (view held clock) = .ok linker)
    (output : ExtractionOutput) (houtput : provider.extract input = .ok output) (p : ExtractionPlan)
    (hplan : planWithLinker unicode policy provider input linker = .ok p)
    (hhash : CollisionFree (hashedTuples provider.name input output p))
    (hevents : ∀ event ∈ p.events.items, event.id ∉ log.items.map (·.metadata.id))
    (hfacts : ∀ fact ∈ factsOf p, fact.id ∉ (recordedIn log.items).map (·.id)) :
    (p.events.items.map (·.id)).Nodup ∧
    (∀ stream expected,
      (∀ actual, streamVersion (ofLog log.items) stream = .ok actual → expected.admits actual = true) →
      ∃ committed, append stream expected p.events.items (ofLog log.items) =
          .ok committed (ofLog (log.items ++ committed)) ∧
        committed.map proposal = p.events.items ∧ ∃ after, applyEach committed held = .ok after) ∧
    Accounts provider.name input output p := by
  have hvalid := hheld.valid.1
  have hinput := planWithLinker_input hplan
  obtain ⟨hvalidated, hbuilt⟩ := planWithLinker_built houtput hplan
  have hsound := soundOutput_of_validate hvalidated
  obtain ⟨created, first, second, hmade⟩ := buildPlan_madeOf hinput hsound (fromView_catalogued hlinker) hbuilt
  obtain ⟨facts, hrecords⟩ := exists_records hmade
  have hnodup := events_nodup hmade hrecords hsound hhash
  have hnew : ∀ fact ∈ facts, fact.id ∉ held.facts.map MemoryFact.id := by
    intro fact hf hmem
    rw [← factsOf_eq hmade hrecords] at hf
    obtain ⟨other, ho, hid⟩ := List.mem_map.mp hmem
    exact hfacts fact hf (List.mem_map.mpr ⟨other, hof ho, hid⟩)
  refine ⟨hnodup, fun stream expected hadmits => ?_, accounts hmade hrecords hsound hhash⟩
  have hfits : log.items.length + p.events.items.length < 2 ^ 64 := by
    have hlength := log.fits
    have hbatch := p.events.fits
    omega
  obtain ⟨committed, hcommitted⟩ := exists_prepareAppend hlog hfits hadmits hevents hnodup
  obtain ⟨hcommittable, -⟩ := prepareAppend_committable hlog hcommitted
  refine ⟨committed, ?_, hcommittable.proposed, ?_⟩
  · rw [append_ofLog hlog, hcommitted]
  · exact applyEach_committed hmade hrecords hsound hhash hvalid (view_known hvalid clock) hnew hcommittable.proposed

def parser : ExtractedEntity :=
  { taskMention with
    localId := ⟨"parser", by decide⟩
    kind := ⟨"component", by decide⟩
    label := ⟨"Parser", by decide⟩
    aliases := ⟨[⟨"Reader", by decide⟩], by decide⟩ }

def taskOne : ExtractedEntity :=
  { taskMention with
    localId := Common.taskKind
    stableId := some Common.task }

def relationTo (target : Text) : ExtractedRelation where
  localId := target
  source := ⟨"parser", by decide⟩
  relation := ⟨"part of", by decide⟩
  target := target
  confidence := .certain
  validFrom := none
  validUntil := none
  span := none

/-- A new entity, a known one and an ambiguous one, with a relation from the first to each of the others. -/
def surveyed : ExtractionOutput :=
  ⟨⟨[parser, taskOne, taskMention], by decide⟩,
    ⟨[relationTo Common.taskKind, relationTo taskMention.localId], by decide⟩⟩

def surveyor : ExtractionProvider where
  name := testProvider
  extract _ := .ok surveyed

def heldOnce : MemoryProjection := applyAll ⟨1, 2⟩ Common.retractedOnce

def surveyClock : ProjectionClock := ⟨Common.ts 40, Common.ts 60⟩

def surveyPlan : Result ExtractionPlan := plan .ascii .default surveyor message (view heldOnce surveyClock)

def fresh (p : ExtractionPlan) : Bool :=
  CollisionFree (hashedTuples surveyor.name message surveyed p) ∧
    (∀ event ∈ p.events.items, event.id ∉ Common.retractedOnce.map (·.metadata.id)) ∧
    ∀ fact ∈ factsOf p, fact.id ∉ (recordedIn Common.retractedOnce).map (·.id)

theorem plan_commits_surveyed : ∃ p, surveyPlan = .ok p ∧ (p.events.items.length, p.rejectedRelations.length) = (2, 1) ∧
    (∃ committed, append Common.stream .any p.events.items (ofLog Common.retractedOnce) =
        .ok committed (ofLog (Common.retractedOnce ++ committed)) ∧
      committed.map proposal = p.events.items ∧ ∃ after, applyEach committed heldOnce = .ok after) ∧
    Accounts surveyor.name message surveyed p := by
  have hrun : surveyPlan.map (fun p => (fresh p, p.events.items.length, p.rejectedRelations.length)) =
      .ok (true, 2, 1) := by decide +kernel
  obtain ⟨p, hplan, hp⟩ := map_eq_ok.mp hrun
  obtain ⟨hfresh, hcounts⟩ := Prod.mk.inj hp
  obtain ⟨hhash, hevents, hfacts⟩ := of_decide_eq_true hfresh
  obtain ⟨t, ht⟩ : ∃ t, restore Common.retractedOnce = .ok t := exists_ok_of_isOk (by decide +kernel)
  obtain ⟨⟨handed, hheld⟩, hof⟩ := obtained_applyAll ⟨1, 2⟩ Common.retractedOnce
  have hbuilt := hplan
  rw [surveyPlan, plan] at hbuilt
  obtain ⟨linker, hlinker, hbuilt⟩ := bind_eq_ok.mp hbuilt
  obtain ⟨-, hcommits, haccounts⟩ := plan_commits .ascii .default surveyor message handed heldOnce hheld
    ⟨Common.retractedOnce, by decide⟩ (restore_eq_ok.mp ht).1 hof surveyClock linker hlinker surveyed rfl p hbuilt hhash
    hevents hfacts
  exact ⟨p, hplan, hcounts, hcommits Common.stream .any fun _ _ => rfl, haccounts⟩

end WeavatrixMemory.Extraction.Committing
