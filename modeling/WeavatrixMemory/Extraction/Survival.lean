import WeavatrixMemory.Extraction.Committing
import WeavatrixMemory.Extraction.Tracing
import WeavatrixMemory.Projection.Shown
import WeavatrixMemory.Projection.Views

namespace WeavatrixMemory.Extraction.Survival

open Error Identity Domain Key Model Linker Engine Linking Created Validity Recording Provenance Committing Tracing
open Catalog (CatalogValid Admissible exists_fromView fromView_catalogued)
open Projection.State Projection.Memory Projection.Invariant Projection.Batches Projection.Revisions Projection.Shown
open Projection.Views Store.InMemory Store.EventLog Store.Commit Snapshot.Routes Logs

variable {unicode : Unicode} {policy : LinkPolicy} {provider : Text} {input : ExtractionInput} {linker : EntityLinker}
  {nodes : List MemoryNode} {output : ExtractionOutput} {p : ExtractionPlan} {held : MemoryProjection}

theorem admissible_view_iff (hheld : Valid held) {clock : ProjectionClock} :
    Admissible (view held clock).nodes ↔ ∀ node ∈ (view held clock).nodes, CatalogValid node := by
  refine ⟨fun h node hn => (h.valid node hn).2, fun h => ⟨fun node hn => ⟨?_, h node hn⟩, (view_ids_nodup hheld).1⟩⟩
  rw [Projection.History.view_eq hheld, Projection.History.visibleNodes, List.mem_filterMap] at hn
  obtain ⟨history, hh, hv⟩ := hn
  obtain ⟨revision, hr, rfl⟩ := Option.map_eq_some_iff.mp hv
  have hm := (List.mem_filter.mp (Projection.History.mem_of_maxBy hr)).1
  exact (checkRevisions_eq_ok.mp (hheld.sound.revisions history hh) revision hm).1

theorem views_catalogued_iff (hheld : Valid held) :
    (∀ clock, ∃ linker, fromView unicode (view held clock) = .ok linker) ↔
      ∀ id knownAt shown, shownRevision held id knownAt = some shown → CatalogValid shown.node := by
  simp only [exists_fromView, admissible_view_iff hheld]
  constructor
  · intro h id knownAt shown hshown
    exact h ⟨knownAt, knownAt⟩ shown.node (mem_view_nodes hheld |>.mpr ⟨id, shown, hshown, rfl⟩)
  · intro h clock node hn
    obtain ⟨id, shown, hshown, rfl⟩ := (mem_view_nodes hheld).mp hn
    exact h id clock.knownAt shown hshown

theorem proposed_of_append {log : List (StoredEvent MemoryEvent)} (hlog : Lawful Continues log) {stream : StreamId}
    {expected : ExpectedVersion} {committed : List (StoredEvent MemoryEvent)} {store : InMemoryStore MemoryEvent}
    (hcommitted : append stream expected p.events.items (ofLog log) = .ok committed store) :
    committed.map proposal = p.events.items := by
  rw [append_ofLog hlog] at hcommitted
  cases hprepared : prepareAppend (ofLog log) stream expected p.events.items with
  | error e =>
      rw [hprepared] at hcommitted
      cases hcommitted
  | ok found =>
      rw [hprepared] at hcommitted
      obtain ⟨rfl, -⟩ := EStateM.Result.ok.inj hcommitted
      exact (prepareAppend_committable hlog hprepared).1.proposed

theorem revisionsOf_committed {created : List MemoryNode} {first second : List (NewEvent MemoryEvent)}
    (h : MadeOf nodes provider input output p created first second) {committed : List (StoredEvent MemoryEvent)}
    (hproposed : committed.map proposal = p.events.items) (id : EntityId) : revisionsOf committed id = [] ∨
      ∃ revision, revisionsOf committed id = [revision] ∧ revision.node.id = id ∧ Upserts p revision.node := by
  obtain ⟨facts, hrecords⟩ := exists_records h
  obtain ⟨early, late, rfl, hearly, hlate⟩ := exists_halves h hrecords hproposed
  rw [revisionsOf_append, revisionsOf_recording hlate, List.append_nil]
  refine (revisionsOf_upserting hearly h.distinct id).imp_right ?_
  rintro ⟨revision, hrevision, hmem, hid⟩
  refine ⟨revision, hrevision, hid, ?_⟩
  obtain ⟨event, he, hproposes⟩ := Pairings.exists_right h.nodeEvents revision.node hmem
  exact ⟨event, h.events ▸ List.mem_append_left _ he, hproposes.payload⟩

/-- What keeps the catalog intact: a node that the plan creates is made of harmless mentions wherever it is shown,
and where none is shown the node of the projection can be catalogued. -/
def KeepsCatalog (unicode : Unicode) (linker : EntityLinker) (input : ExtractionInput) (policy : LinkPolicy)
    (output : ExtractionOutput) (held : MemoryProjection) (committed : List (StoredEvent MemoryEvent)) : Prop :=
  ∀ id knownAt,
    ((∃ revision ∈ revisionsOf committed id, TakesOver held revision knownAt) →
      ∀ mention ∈ output.entities.items, TurnedInto unicode linker input policy mention id → Harmless mention) ∧
    ((¬ ∃ revision ∈ revisionsOf committed id, TakesOver held revision knownAt) →
      ∀ shown, shownRevision held id knownAt = some shown → CatalogValid shown.node)

/-- After a plan is committed a catalog can be made of every view exactly if no untrimmed alias has come in. -/
theorem catalog_survives_iff (unicode : Unicode) (policy : LinkPolicy) (provider : ExtractionProvider)
    (input : ExtractionInput) (handed : List MemoryFact) (held : MemoryProjection) (hheld : Obtained handed held)
    (log : Vec (StoredEvent MemoryEvent)) (hlog : Lawful Continues log.items) (clock : ProjectionClock)
    (linker : EntityLinker) (hlinker : fromView unicode (view held clock) = .ok linker) (output : ExtractionOutput)
    (houtput : provider.extract input = .ok output) (p : ExtractionPlan)
    (hplan : plan unicode policy provider input (view held clock) = .ok p) (stream : StreamId)
    (expected : ExpectedVersion) (committed : List (StoredEvent MemoryEvent)) (store : InMemoryStore MemoryEvent)
    (hcommitted : append stream expected p.events.items (ofLog log.items) = .ok committed store)
    (after : MemoryProjection) (hafter : applyEach committed held = .ok after) :
    (∀ clock', ∃ linker', fromView unicode (view after clock') = .ok linker') ↔
      KeepsCatalog unicode linker input policy output held committed := by
  have hvalid := hheld.valid.1
  have hrun : planWithLinker unicode policy provider input linker = .ok p := by
    rwa [plan, hlinker, ok_bind] at hplan
  obtain ⟨hvalidated, hbuilt⟩ := planWithLinker_built houtput hrun
  have hsound := soundOutput_of_validate hvalidated
  obtain ⟨created, first, second, hmade⟩ :=
    buildPlan_madeOf (planWithLinker_input hrun) hsound (fromView_catalogued hlinker) hbuilt
  have hproposed := proposed_of_append hlog hcommitted
  obtain ⟨hlast, hrevisions⟩ := revisionsIn_applyEach hvalid hafter
  rw [views_catalogued_iff hlast, KeepsCatalog]
  refine forall_congr' fun id => forall_congr' fun knownAt => ?_
  obtain hnone | ⟨revision, hone, hid, hupserts⟩ := revisionsOf_committed hmade hproposed id
  · have hsame : shownRevision after id knownAt = shownRevision held id knownAt := by
      rw [shownRevision, hrevisions, hnone, List.append_nil, shownRevision]
    rw [hsame, hnone]
    simp
  · have hshown := @shownRevision_snoc held after id knownAt revision hid (by rw [hrevisions, hone])
    have hharmless := catalogValid_iff_harmless (validateOutput_mentions hvalidated) hbuilt hupserts
    rw [hid] at hharmless
    rw [hone]
    simp only [List.mem_singleton, exists_eq_left]
    by_cases htakes : TakesOver held revision knownAt
    · rw [hshown.1 htakes, ← hharmless]
      simp [htakes]
    · rw [hshown.2 htakes]
      simp [htakes]

def heldNothing : MemoryProjection := applyAll ⟨1, 2⟩ []

/-- Plans what a provider extracts, commits it to an empty log and applies what has been committed. -/
def ingest (provider : ExtractionProvider) :
    Result (ExtractionPlan × List (StoredEvent MemoryEvent) × InMemoryStore MemoryEvent × MemoryProjection) := do
  let p ← plan .ascii .default provider message (view heldNothing surveyClock)
  match append Common.stream .any p.events.items (ofLog []) with
  | .ok committed store =>
      let after ← applyEach committed heldNothing
      .ok (p, committed, store, after)
  | .error e _ => .error e

theorem ingest_eq_ok {provider : ExtractionProvider} {committed : List (StoredEvent MemoryEvent)}
    {store : InMemoryStore MemoryEvent} {after : MemoryProjection}
    (h : ingest provider = .ok (p, committed, store, after)) :
    plan .ascii .default provider message (view heldNothing surveyClock) = .ok p ∧
      append Common.stream .any p.events.items (ofLog []) = .ok committed store ∧
        applyEach committed heldNothing = .ok after := by
  obtain ⟨q, hplan, h⟩ := bind_eq_ok.mp h
  cases happended : append Common.stream .any q.events.items (ofLog []) with
  | error e store =>
      rw [happended] at h
      cases h
  | ok found state =>
      rw [happended] at h
      obtain ⟨last, hlast, h⟩ := bind_eq_ok.mp h
      cases Except.ok.inj h
      exact ⟨hplan, happended, hlast⟩

theorem catalog_survives_iff_honest : ∃ linker p committed store after,
    fromView .ascii (view heldNothing surveyClock) = .ok linker ∧
    plan .ascii .default honest message (view heldNothing surveyClock) = .ok p ∧
    append Common.stream .any p.events.items (ofLog []) = .ok committed store ∧
    applyEach committed heldNothing = .ok after ∧
    ((∀ clock, ∃ linker', fromView .ascii (view after clock) = .ok linker') ↔
      KeepsCatalog .ascii linker message .default
        ⟨⟨[taskMention], by decide⟩, ⟨[], by decide⟩⟩ heldNothing committed) := by
  obtain ⟨linker, hlinker⟩ : ∃ linker, fromView .ascii (view heldNothing surveyClock) = .ok linker :=
    exists_ok_of_isOk (by decide +kernel)
  obtain ⟨⟨p, committed, store, after⟩, hrun⟩ : ∃ run, ingest honest = .ok run := exists_ok_of_isOk (by decide +kernel)
  obtain ⟨hplan, hcommitted, hafter⟩ := ingest_eq_ok hrun
  obtain ⟨⟨handed, hheld⟩, -⟩ := obtained_applyAll ⟨1, 2⟩ []
  exact ⟨linker, p, committed, store, after, hlinker, hplan, hcommitted, hafter, catalog_survives_iff .ascii .default
    honest message handed heldNothing hheld ⟨[], by decide⟩ lawful_nil surveyClock linker hlinker
    ⟨⟨[taskMention], by decide⟩, ⟨[], by decide⟩⟩
    rfl p hplan Common.stream .any committed store hcommitted after hafter⟩

def paddedMention : ExtractedEntity :=
  { taskMention with attributes := (∅ : BTreeMap Text Text).insert ⟨"alias", by decide⟩ ⟨" Duty ", by decide⟩ }

def padder : ExtractionProvider := answering ⟨[paddedMention], by decide⟩

/-- An untrimmed alias goes all the way into the projection, of which no catalog can be made any more. -/
theorem catalog_poisoned : ∃ linker p committed store after,
    fromView .ascii (view heldNothing surveyClock) = .ok linker ∧
    plan .ascii .default padder message (view heldNothing surveyClock) = .ok p ∧
    append Common.stream .any p.events.items (ofLog []) = .ok committed store ∧
    applyEach committed heldNothing = .ok after ∧
    ¬ ∃ linker', fromView .ascii (view after surveyClock) = .ok linker' := by
  obtain ⟨linker, hlinker⟩ : ∃ linker, fromView .ascii (view heldNothing surveyClock) = .ok linker :=
    exists_ok_of_isOk (by decide +kernel)
  have hany : (ingest padder).map (fun run => (fromView .ascii (view run.2.2.2 surveyClock)).isOk) = .ok false := by
    decide +kernel
  obtain ⟨⟨p, committed, store, after⟩, hrun, hrefused⟩ := map_eq_ok.mp hany
  obtain ⟨hplan, hcommitted, hafter⟩ := ingest_eq_ok hrun
  refine ⟨linker, p, committed, store, after, hlinker, hplan, hcommitted, hafter, ?_⟩
  rintro ⟨linker', hlinker'⟩
  rw [hlinker'] at hrefused
  cases hrefused

end WeavatrixMemory.Extraction.Survival
