import WeavatrixMemory.Extraction.Committing
import WeavatrixMemory.Projection.Semantics
import WeavatrixMemory.Snapshot.Following

namespace WeavatrixMemory.Extraction.Ingesting

open Error Identity Domain Key Model Linker Engine Catalog Linking Validity Recording Plans Provenance Committing
open Projection.State Projection.Memory Projection.Replay Projection.Invariant Projection.Batches Projection.Semantics
open Store.InMemory Store.EventLog Store.Commit Store.Validators Store.Tracking Snapshot.Resume Snapshot.Following
open Logs Pairings Bitemporal Relation

/-- A plan that awaits its review, with what it has been made of. -/
structure Draft where
  provider : Text
  input : ExtractionInput
  output : ExtractionOutput
  plan : ExtractionPlan

def Draft.tuples (draft : Draft) : List (List String) :=
  hashedTuples draft.provider draft.input draft.output draft.plan

/-- A store, and the plans that have been made for it. -/
structure Desk where
  store : InMemoryStore MemoryEvent
  drafts : List Draft

def Desk.tuples (d : Desk) : List (List String) := d.drafts.flatMap Draft.tuples

/-- The identifier is one that the engine may give to a fact. -/
def Automatic (id : FactId) : Prop := ∃ name, id.toString = "fact:auto:" ++ name

def Replays (log : List (StoredEvent MemoryEvent)) : Prop :=
  ∃ seeds p cursor, replayTracked (memory seeds) log = .ok (p, cursor)

/-- What happens to a store that plans are made for. A plan is made of what the memory was after some event of the log,
as it is seen at some clock, and may be appended at any later time, or never. What others append can be replayed, and
they do not name their facts as the engine does. -/
inductive Turn (unicode : Unicode) : Desk → Desk → Prop
  | drafted {d : Desk} {n : Nat} {seeds : Seeds} {held : MemoryProjection} {clock : ProjectionClock}
      {policy : LinkPolicy}
      {provider : ExtractionProvider} {input : ExtractionInput} {output : ExtractionOutput} {linker : EntityLinker}
      {p : ExtractionPlan} (hheld : replay (memory seeds) (d.store.events.take n) = .ok held)
      (hlinker : fromView unicode (view held clock) = .ok linker) (houtput : provider.extract input = .ok output)
      (hplan : planWithLinker unicode policy provider input linker = .ok p) :
      Turn unicode d { d with drafts := ⟨provider.name, input, output, p⟩ :: d.drafts }
  | committed {d : Desk} {draft : Draft} {stream : StreamId} {expected : ExpectedVersion}
      {committed : List (StoredEvent MemoryEvent)} {store : InMemoryStore MemoryEvent} (hdraft : draft ∈ d.drafts)
      (happend : append stream expected draft.plan.events.items d.store = .ok committed store) :
      Turn unicode d { d with store := store }
  | written {d : Desk} {batch : List (NewEvent MemoryEvent)} {stream : StreamId} {expected : ExpectedVersion}
      {committed : List (StoredEvent MemoryEvent)} {store : InMemoryStore MemoryEvent}
      (happend : append stream expected batch d.store = .ok committed store) (hreplays : Replays store.events)
      (hnames : ∀ event ∈ batch, ∀ fact, event.payload = .factRecorded fact → ¬ Automatic fact.id) :
      Turn unicode d { d with store := store }

section Log

variable {log committed : List (StoredEvent MemoryEvent)} {seeds : Seeds} {p q : MemoryProjection}
  {cursor : ReplayCursor}

theorem appended {stream : StreamId} {expected : ExpectedVersion} {batch : List (NewEvent MemoryEvent)}
    {store : InMemoryStore MemoryEvent} (hl : Lawful Continues log)
    (h : append stream expected batch (ofLog log) = .ok committed store) :
    store = ofLog (log ++ committed) ∧ Committable log stream batch committed := by
  rw [append_ofLog hl] at h
  cases hprepared : prepareAppend (ofLog log) stream expected batch with
  | error e =>
      rw [hprepared] at h
      cases h
  | ok events =>
      rw [hprepared] at h
      cases h
      exact ⟨rfl, (prepareAppend_committable hl hprepared).1⟩

theorem replayTracked_grows (h : replayTracked (memory seeds) log = .ok (p, cursor))
    (hgrows : Grows Continues log committed) (happlied : applyEach committed p = .ok q) :
    ∃ later, replayTracked (memory seeds) (log ++ committed) = .ok (q, later) := by
  induction committed generalizing log p cursor with
  | nil =>
      obtain rfl := Except.ok.inj happlied
      exact ⟨cursor, by rwa [List.append_nil]⟩
  | cons event rest ih =>
      obtain ⟨hcontinues, hrest⟩ := hgrows
      rw [applyEach, List.foldlM_cons] at happlied
      obtain ⟨next, hnext, happlied⟩ := bind_eq_ok.mp happlied
      have hfollows := (replayTracked_lawful h).2.follows_iff.mpr hcontinues
      have hone : replayTracked (memory seeds) (log ++ [event]) = .ok (next, cursor.after event) := by
        refine applyLoop_append.mpr ⟨p, cursor, h, applyLoop_cons_eq_ok.mpr ⟨?_, next, runOn_eq_ok.mp hnext, rfl⟩⟩
        rwa [List.append_nil]
      have hlater := ih hone hrest happlied
      rwa [List.append_assoc, List.singleton_append] at hlater

theorem Replays.lawful (h : Replays log) : Lawful Continues log := by
  obtain ⟨seeds, p, cursor, h⟩ := h
  exact (replayTracked_lawful h).1

theorem Replays.all (h : Replays log) (seeds : Seeds) :
    ∃ p cursor, replayTracked (memory seeds) log = .ok (p, cursor) := by
  obtain ⟨first, p, cursor, h⟩ := h
  obtain ⟨q, hq, -⟩ := @replayTracked_seeds _ _ seeds _ _ h
  exact ⟨q, cursor, hq⟩

theorem reads_of_tracked (h : replayTracked (memory seeds) log = .ok (p, cursor)) : Reads p log :=
  reads_of_replay (.inl (by rw [replay, h]; rfl))

theorem mem_facts_ledger {fact : MemoryFact} :
    fact ∈ facts (ledger log) ↔ ∃ event ∈ log, event.payload = .factRecorded fact := by
  rw [facts, ledger, List.filterMap_map, List.mem_filterMap]
  refine exists_congr fun event => and_congr_right fun _ => ?_
  rcases event with ⟨metadata, payload⟩
  cases payload <;> simp [entryOf, Entry.fact]

theorem mem_factsOf {plan : ExtractionPlan} {fact : MemoryFact} :
    fact ∈ factsOf plan ↔ ∃ event ∈ plan.events.items, event.payload = .factRecorded fact := by
  rw [factsOf, List.mem_flatMap]
  refine exists_congr fun event => and_congr_right fun _ => ?_
  cases event.payload with
  | factRecorded other => simp [Snapshot.Routes.recorded, eq_comm]
  | nodeUpserted node => simp [Snapshot.Routes.recorded]
  | factRetracted id ends evidence => simp [Snapshot.Routes.recorded]

theorem mem_entities_ledger {id : EntityId} :
    id ∈ entities (ledger log) ↔ ∃ event ∈ log, ∃ node, event.payload = .nodeUpserted node ∧ node.id = id := by
  rw [entities, List.mem_eraseDups, writes, ledger, List.filterMap_map, List.mem_map]
  constructor
  · rintro ⟨write, hwrite, rfl⟩
    obtain ⟨⟨metadata, payload⟩, he, hwrite⟩ := List.mem_filterMap.mp hwrite
    cases payload with
    | nodeUpserted node =>
        obtain rfl := Option.some.inj hwrite
        exact ⟨_, he, node, rfl, rfl⟩
    | factRecorded fact => cases hwrite
    | factRetracted id ends evidence => cases hwrite
  · rintro ⟨⟨metadata, payload⟩, he, node, rfl, rfl⟩
    exact ⟨_, List.mem_filterMap.mpr ⟨_, he, rfl⟩, rfl⟩

end Log

theorem collisionFree_subset {tuples fewer : List (List String)} (h : CollisionFree tuples) (hsub : fewer ⊆ tuples) :
    CollisionFree fewer := fun a ha b hb => h a (hsub ha) b (hsub hb)

structure Draft.Made (draft : Draft) (log : List (StoredEvent MemoryEvent)) : Prop where
  sound : SoundOutput draft.output draft.input
  made : ∃ nodes created first second,
    MadeOf nodes draft.provider draft.input draft.output draft.plan created first second ∧
      ∀ id ∈ nodes.map (·.id), id ∈ entities (ledger log)

def Draft.Gave (draft : Draft) (log : List (StoredEvent MemoryEvent)) (fact : MemoryFact) : Prop :=
  ∃ event ∈ draft.plan.events.items, event.payload = .factRecorded fact ∧ event.id ∈ log.map (·.metadata.id)

/-- The log can be replayed, and whatever is named in it as the engine names its facts comes from a plan. -/
structure Sound (d : Desk) : Prop where
  store : d.store = ofLog d.store.events
  replays : Replays d.store.events
  drafts : ∀ draft ∈ d.drafts, draft.Made d.store.events
  given : ∀ fact ∈ facts (ledger d.store.events), Automatic fact.id →
    ∃ draft ∈ d.drafts, draft.Gave d.store.events fact

variable {unicode : Unicode} {d e : Desk} {draft other : Draft} {log more committed : List (StoredEvent MemoryEvent)}
  {event event' : NewEvent MemoryEvent} {fact fact' : MemoryFact}

theorem sound_default : Sound ⟨.default, []⟩ where
  store := rfl
  replays := ⟨⟨0, 0⟩, .default ⟨0, 0⟩, .default, rfl⟩
  drafts := fun _ h => absurd h List.not_mem_nil
  given := fun _ h => absurd h List.not_mem_nil

theorem Draft.Made.longer (h : draft.Made log) (hlog : log ⊆ more) : draft.Made more := by
  obtain ⟨hsound, nodes, created, first, second, hmade, hknown⟩ := h
  refine ⟨hsound, nodes, created, first, second, hmade, fun id hid => ?_⟩
  obtain ⟨event, he, hnode⟩ := mem_entities_ledger.mp (hknown id hid)
  exact mem_entities_ledger.mpr ⟨event, hlog he, hnode⟩

theorem Draft.Made.proposes (h : draft.Made log) (he : event ∈ draft.plan.events.items)
    (hp : event.payload = .factRecorded fact) :
    ∃ relation, Proposes draft.provider draft.input (mentionsOf draft.output draft.plan) relation event fact ∧
      relationTuple draft.provider draft.input (fingerprintOf draft.input) relation fact.source fact.target ∈
        draft.tuples ∧
      factTuple draft.provider draft.input (fingerprintOf draft.input) fact ∈ draft.tuples := by
  obtain ⟨nodes, created, first, second, hmade, -⟩ := h.made
  have hhashed := @event_hashed draft.provider draft.input draft.output draft.plan event he
  rw [hp, eventTuple] at hhashed
  rw [hmade.events, List.mem_append] at he
  obtain he | he := he
  · obtain ⟨node, -, hnode⟩ := exists_left hmade.nodeEvents event he
    rw [hnode.payload] at hp
    cases hp
  · obtain ⟨relation, hr, found, hproposes⟩ := exists_left hmade.factEvents event he
    rw [hproposes.payload, MemoryEvent.factRecorded.injEq] at hp
    subst hp
    exact ⟨relation, hproposes, relation_hashed hmade.mentions (List.mem_of_mem_filter hr) hproposes.between, hhashed⟩

/-- Plans that name two facts alike have the same provider, source and content, and so name the events of these facts
alike, too. -/
theorem event_id_eq (hhash : CollisionFree d.tuples) (hdraft : draft ∈ d.drafts) (hother : other ∈ d.drafts)
    (hmade : draft.Made log) (hmade' : other.Made log) (he : event ∈ draft.plan.events.items)
    (he' : event' ∈ other.plan.events.items) (hp : event.payload = .factRecorded fact)
    (hp' : event'.payload = .factRecorded fact') (hid : fact.id = fact'.id) : event.id = event'.id := by
  obtain ⟨relation, hproposes, hrelation, hfact⟩ := hmade.proposes he hp
  obtain ⟨relation', hproposes', hrelation', -⟩ := hmade'.proposes he' hp'
  have hname := congrArg TextId.toString hid
  rw [hproposes.between.recorded.name, hproposes'.between.recorded.name] at hname
  have htuple := hhash.name_inj _ (List.mem_flatMap_of_mem hdraft hrelation) (List.mem_flatMap_of_mem hother hrelation')
    hname
  simp only [relationTuple, List.cons.injEq] at htuple
  obtain ⟨hprovider, hsource, hfingerprint, -⟩ := htuple
  have hsame : factTuple draft.provider draft.input (fingerprintOf draft.input) fact =
      factTuple other.provider other.input (fingerprintOf other.input) fact' := by
    rw [factTuple, factTuple, hprovider, hsource, hfingerprint, hid]
  refine TextId.ext (Text.ext (hproposes.name.trans ?_))
  rw [hsame]
  exact hproposes'.name.symm

theorem Sound.fresh (hs : Sound d) (hhash : CollisionFree d.tuples) (hdraft : draft ∈ d.drafts)
    (hfresh : ∀ event ∈ draft.plan.events.items, event.id ∉ d.store.events.map (·.metadata.id))
    (he : event ∈ draft.plan.events.items) (hp : event.payload = .factRecorded fact) :
    fact.id ∉ (facts (ledger d.store.events)).map MemoryFact.id := by
  intro hmem
  obtain ⟨earlier, hearlier, hid⟩ := List.mem_map.mp hmem
  have hmade := hs.drafts draft hdraft
  obtain ⟨relation, hproposes, -⟩ := hmade.proposes he hp
  have hautomatic : Automatic earlier.id := ⟨_, hid ▸ hproposes.between.recorded.name⟩
  obtain ⟨other, hother, event', he', hp', hlogged⟩ := hs.given earlier hearlier hautomatic
  refine hfresh event he ?_
  rwa [event_id_eq hhash hdraft hother hmade (hs.drafts other hother) he he' hp hp' hid.symm]

theorem Sound.replayed (hs : Sound d) (hhash : CollisionFree d.tuples) (hdraft : draft ∈ d.drafts)
    (hfresh : ∀ event ∈ draft.plan.events.items, event.id ∉ d.store.events.map (·.metadata.id))
    (hgrows : Grows Continues d.store.events committed) (hproposed : committed.map proposal = draft.plan.events.items)
    (seeds : Seeds) : ∃ p cursor, replayTracked (memory seeds) (d.store.events ++ committed) = .ok (p, cursor) := by
  obtain ⟨p, cursor, hp⟩ := hs.replays.all seeds
  have hholds := (reads_of_tracked hp).holds
  obtain ⟨hsound, nodes, created, first, second, hmade, hknown⟩ := hs.drafts draft hdraft
  obtain ⟨records, hrecords⟩ := exists_records hmade
  have hnew : ∀ fact ∈ records, fact.id ∉ p.facts.map MemoryFact.id := by
    intro fact hf
    obtain ⟨event, he, relation, hproposes⟩ := exists_right hrecords.events fact hf
    rw [hholds.facts]
    refine hs.fresh hhash hdraft hfresh ?_ hproposes.payload
    rw [hmade.events]
    exact List.mem_append_right _ he
  obtain ⟨q, hq⟩ := applyEach_committed hmade hrecords hsound
    (collisionFree_subset hhash fun _ ht => List.mem_flatMap_of_mem hdraft ht) hholds.valid
    (by rwa [hholds.entities]) hnew hproposed
  obtain ⟨later, hlater⟩ := replayTracked_grows hp hgrows hq
  exact ⟨q, later, hlater⟩

theorem Sound.grown (hs : Sound d) (hreplays : Replays (d.store.events ++ committed))
    (hfacts : ∀ event ∈ committed, ∀ fact, event.payload = .factRecorded fact → Automatic fact.id →
      ∃ draft ∈ d.drafts, draft.Gave (d.store.events ++ committed) fact) :
    Sound { d with store := ofLog (d.store.events ++ committed) } where
  store := rfl
  replays := hreplays
  drafts := fun draft hdraft => (hs.drafts draft hdraft).longer (List.subset_append_left _ _)
  given := by
    intro fact hf hautomatic
    obtain ⟨event, he, hp⟩ := mem_facts_ledger.mp hf
    obtain he | he := List.mem_append.mp he
    · obtain ⟨draft, hdraft, proposed, hproposed, hp', hlogged⟩ :=
        hs.given fact (mem_facts_ledger.mpr ⟨event, he, hp⟩) hautomatic
      refine ⟨draft, hdraft, proposed, hproposed, hp', ?_⟩
      rw [show (ofLog (d.store.events ++ committed)).events = d.store.events ++ committed from rfl, List.map_append]
      exact List.mem_append_left _ hlogged
    · exact hfacts event he fact hp hautomatic

theorem new_of_grows {batch : List (NewEvent MemoryEvent)} (hl : Lawful Continues log)
    (hgrows : Grows Continues log committed) (hproposed : committed.map proposal = batch) :
    ∀ event ∈ batch, event.id ∉ log.map (·.metadata.id) := by
  rintro event he hmem
  rw [← hproposed] at he
  obtain ⟨stored, hstored, rfl⟩ := List.mem_map.mp he
  obtain ⟨earlier, hearlier, hid⟩ := List.mem_map.mp hmem
  exact fresh_of_lawful (lawful_append.mpr ⟨hl, hgrows⟩) stored hstored earlier hearlier hid.symm

theorem Turn.tuples_subset (h : Turn unicode d e) : d.tuples ⊆ e.tuples := by
  cases h with
  | drafted => exact fun _ ht => List.mem_append_right _ ht
  | committed => exact List.Subset.refl _
  | written => exact List.Subset.refl _

theorem Sound.turn (hs : Sound d) (hhash : CollisionFree d.tuples) (h : Turn unicode d e) : Sound e := by
  have hl := hs.replays.lawful
  cases h with
  | @drafted n seeds held clock policy provider input output linker p hheld hlinker houtput hplan =>
      refine ⟨hs.store, hs.replays, List.forall_mem_cons.mpr ⟨?_, hs.drafts⟩, fun fact hf hautomatic => ?_⟩
      · have hholds := (reads_of_replay (.inl hheld)).holds
        obtain ⟨hvalidated, hbuilt⟩ := planWithLinker_built houtput hplan
        have hsound := soundOutput_of_validate hvalidated
        obtain ⟨created, first, second, hmade⟩ := buildPlan_madeOf (planWithLinker_input hplan) hsound
          (fromView_catalogued hlinker) hbuilt
        have hdraft : Draft.Made ⟨provider.name, input, output, p⟩ (d.store.events.take n) := by
          refine ⟨hsound, _, created, first, second, hmade, fun id hid => ?_⟩
          rw [← hholds.entities]
          exact view_known hholds.valid clock id hid
        exact hdraft.longer (List.take_subset _ _)
      · obtain ⟨draft, hdraft, hgave⟩ := hs.given fact hf hautomatic
        exact ⟨draft, List.mem_cons_of_mem _ hdraft, hgave⟩
  | @committed draft stream expected committed store hdraft happend =>
      rw [hs.store] at happend
      obtain ⟨rfl, hgrows, hproposed, -⟩ := appended hl happend
      have hnew := new_of_grows hl hgrows hproposed
      obtain ⟨p, cursor, hp⟩ := hs.replayed hhash hdraft hnew hgrows hproposed ⟨0, 0⟩
      refine hs.grown ⟨_, p, cursor, hp⟩ fun event he fact hfact _ => ⟨draft, hdraft, proposal event, ?_, hfact, ?_⟩
      · rw [← hproposed]
        exact List.mem_map_of_mem he
      · exact List.mem_map.mpr ⟨event, List.mem_append_right _ he, rfl⟩
  | @written batch stream expected committed store happend hreplays hnames =>
      rw [hs.store] at happend
      obtain ⟨rfl, hgrows, hproposed, -⟩ := appended hl happend
      refine hs.grown hreplays fun event he fact hfact hautomatic => ?_
      have hbatch : proposal event ∈ batch := hproposed ▸ List.mem_map_of_mem he
      exact absurd hautomatic (hnames _ hbatch fact hfact)

theorem sound_of_run (h : ReflTransGen (Turn unicode) ⟨.default, []⟩ d) (hhash : CollisionFree d.tuples) : Sound d := by
  induction h with
  | refl => exact sound_default
  | tail _ hturn ih =>
      have hearlier := collisionFree_subset hhash hturn.tuples_subset
      exact (ih hearlier).turn hearlier hturn

/-- What becomes of a plan, however long it has waited: if an event of it is in the log it is refused, and nothing
changes; otherwise it is appended whole, and all of its facts are in the memory of the longer log. -/
theorem drafts_commit_whole (unicode : Unicode) (d : Desk) (hd : ReflTransGen (Turn unicode) ⟨.default, []⟩ d)
    (hhash : CollisionFree d.tuples) :
    (∀ seeds, ∃ p cursor, replayTracked (memory seeds) d.store.events = .ok (p, cursor)) ∧
    ∀ draft ∈ d.drafts, ∀ stream expected,
      ((∃ event ∈ draft.plan.events.items, event.id ∈ d.store.events.map (·.metadata.id)) →
        ∃ e, append stream expected draft.plan.events.items d.store = .error e d.store) ∧
      ((∀ event ∈ draft.plan.events.items, event.id ∉ d.store.events.map (·.metadata.id)) →
        (∀ actual, streamVersion d.store stream = .ok actual → expected.admits actual = true) →
        d.store.events.length + draft.plan.events.items.length < 2 ^ 64 →
        ∃ committed, append stream expected draft.plan.events.items d.store =
            .ok committed (ofLog (d.store.events ++ committed)) ∧
          committed.map proposal = draft.plan.events.items ∧
          ∀ seeds, ∃ p cursor, replayTracked (memory seeds) (d.store.events ++ committed) = .ok (p, cursor) ∧
            factsOf draft.plan ⊆ p.facts) := by
  have hs := sound_of_run hd hhash
  have hl := hs.replays.lawful
  refine ⟨hs.replays.all, fun draft hdraft stream expected => ⟨?_, fun hnew hadmits hfits => ?_⟩⟩
  · rintro ⟨event, he, hlogged⟩
    rw [hs.store, append_ofLog hl]
    cases hprepared : prepareAppend (ofLog d.store.events) stream expected draft.plan.events.items with
    | error e => exact ⟨e, rfl⟩
    | ok committed =>
        have hcommittable := (prepareAppend_committable hl hprepared).1
        exact absurd hlogged (new_of_grows hl hcommittable.grows hcommittable.proposed event he)
  · have hmade := hs.drafts draft hdraft
    obtain ⟨nodes, created, first, second, hmadeOf, -⟩ := hmade.made
    obtain ⟨records, hrecords⟩ := exists_records hmadeOf
    have hnodup := events_nodup hmadeOf hrecords hmade.sound
      (collisionFree_subset hhash fun _ ht => List.mem_flatMap_of_mem hdraft ht)
    rw [hs.store] at hadmits ⊢
    obtain ⟨committed, hprepared⟩ := exists_prepareAppend hl hfits hadmits hnew hnodup
    obtain ⟨hgrows, hproposed, -⟩ := (prepareAppend_committable hl hprepared).1
    refine ⟨committed, by rw [append_ofLog hl, hprepared]; rfl, hproposed, fun seeds => ?_⟩
    obtain ⟨p, cursor, hp⟩ := hs.replayed hhash hdraft hnew hgrows hproposed seeds
    refine ⟨p, cursor, hp, fun fact hf => ?_⟩
    rw [(reads_of_tracked hp).holds.facts, mem_facts_ledger]
    obtain ⟨event, he, hrecorded⟩ := mem_factsOf.mp hf
    rw [← hproposed] at he
    obtain ⟨stored, hstored, rfl⟩ := List.mem_map.mp he
    exact ⟨stored, List.mem_append_right _ hstored, hrecorded⟩

def emptyMemory : MemoryView := view (.default ⟨1, 2⟩) surveyClock

def rereader : ExtractionProvider := { surveyor with name := ⟨"second-reader", by decide⟩ }

theorem Turn.drafted_empty {provider : ExtractionProvider} {output : ExtractionOutput} {p : ExtractionPlan}
    (houtput : provider.extract message = .ok output)
    (h : Engine.plan .ascii .default provider message emptyMemory = .ok p) :
    Turn .ascii d { d with drafts := ⟨provider.name, message, output, p⟩ :: d.drafts } := by
  obtain ⟨linker, hlinker, hplan⟩ := bind_eq_ok.mp h
  have hheld : replay (memory ⟨1, 2⟩) (d.store.events.take 0) = .ok (.default ⟨1, 2⟩) := rfl
  exact .drafted hheld hlinker houtput hplan

/-- Two providers read the same message before either of their plans is appended. -/
def compete :
    Result (ExtractionPlan × ExtractionPlan × List (StoredEvent MemoryEvent) × InMemoryStore MemoryEvent) := do
  let p ← Engine.plan .ascii .default surveyor message emptyMemory
  let q ← Engine.plan .ascii .default rereader message emptyMemory
  match append Common.stream .any p.events.items .default with
  | .ok committed store => .ok (p, q, committed, store)
  | .error e _ => .error e

def competes (p q : ExtractionPlan) (store : InMemoryStore MemoryEvent) : Bool :=
  decide (CollisionFree ((Draft.mk rereader.name message surveyed q).tuples ++
      (Draft.mk surveyor.name message surveyed p).tuples)) &&
    q.events.items.all (fun event => event.id ∉ store.events.map (·.metadata.id)) &&
    decide (store.events.length + q.events.items.length = 10)

theorem drafts_commit_whole_two : ∃ p q store committed,
    Engine.plan .ascii .default surveyor message emptyMemory = .ok p ∧
    Engine.plan .ascii .default rereader message emptyMemory = .ok q ∧
    append Common.stream .any p.events.items .default = .ok store.events store ∧
    append Common.stream .any q.events.items store = .ok committed (ofLog (store.events ++ committed)) ∧
    ∀ seeds, ∃ held cursor, replayTracked (memory seeds) (store.events ++ committed) = .ok (held, cursor) ∧
      factsOf q ⊆ held.facts := by
  have hany : compete.map (fun run => competes run.1 run.2.1 run.2.2.2) = .ok true := by decide +kernel
  obtain ⟨⟨p, q, committed, store⟩, hrun, hcompetes⟩ := map_eq_ok.mp hany
  rw [compete] at hrun
  obtain ⟨p', hp, hrun⟩ := bind_eq_ok.mp hrun
  obtain ⟨q', hq, hrun⟩ := bind_eq_ok.mp hrun
  cases happend : append Common.stream .any p'.events.items .default with
  | error e s =>
      rw [happend] at hrun
      cases hrun
  | ok stored found =>
      rw [happend] at hrun
      cases hrun
      dsimp only at hcompetes
      rw [competes, Bool.and_eq_true, Bool.and_eq_true, decide_eq_true_iff, decide_eq_true_iff,
        List.all_eq_true] at hcompetes
      obtain ⟨⟨hhash, hnew⟩, hlength⟩ := hcompetes
      have hdrafts : ReflTransGen (Turn .ascii) ⟨.default, []⟩
          ⟨.default, [⟨rereader.name, message, surveyed, q⟩, ⟨surveyor.name, message, surveyed, p⟩]⟩ :=
        (ReflTransGen.single (.drafted_empty rfl hp)).tail (.drafted_empty rfl hq)
      have hcommitted := hdrafts.tail (.committed (List.mem_cons_of_mem _ List.mem_cons_self) happend)
      obtain ⟨-, hcommits⟩ := drafts_commit_whole .ascii _ hcommitted (by simpa [Desk.tuples] using hhash)
      obtain ⟨committed, hsecond, -, hreplays⟩ := (hcommits _ List.mem_cons_self Common.stream .any).2
        (fun event he => of_decide_eq_true (hnew event he)) (fun _ _ => rfl) (by rw [hlength]; decide)
      obtain ⟨rfl, -⟩ := appended lawful_nil (happend : append Common.stream .any p.events.items (ofLog []) = _)
      exact ⟨p, q, _, committed, hp, hq, happend, hsecond, hreplays⟩

end WeavatrixMemory.Extraction.Ingesting
