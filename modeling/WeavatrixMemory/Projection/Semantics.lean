import WeavatrixMemory.Common
import WeavatrixMemory.Library.Bitemporal
import WeavatrixMemory.Projection.Replacement
import WeavatrixMemory.Projection.Revisions

namespace WeavatrixMemory.Projection.Semantics

open Error Identity Domain State Memory Admission Invariant History Replay Revisions Replacement Bitemporal

def entryOf (event : StoredEvent MemoryEvent) : Entry EntityId MemoryNode MemoryFact FactId Timestamp :=
  match event.payload with
  | .nodeUpserted node => .wrote node.id node event.metadata.recordedAt
  | .factRecorded fact => .asserted fact
  | .factRetracted factId validUntil _ => .withdrew factId validUntil event.metadata.recordedAt

def ledger (log : List (StoredEvent MemoryEvent)) : List (Entry EntityId MemoryNode MemoryFact FactId Timestamp) :=
  log.map entryOf

def readFact : Reading EntityId MemoryFact FactId Timestamp where
  id := MemoryFact.id
  source := MemoryFact.source
  target := MemoryFact.target
  recorded := MemoryFact.recordedAt
  begins := MemoryFact.validFrom
  ends := MemoryFact.validUntil
  replaces := MemoryFact.supersedes

def clockOf (clock : ProjectionClock) : Clock Timestamp := ⟨clock.validAt, clock.knownAt⟩

def asView (state : State MemoryNode MemoryFact) : MemoryView := ⟨state.values, state.facts⟩

def asRetraction (withdrawal : Withdrawal Timestamp) : Retraction := ⟨withdrawal.ends, withdrawal.recorded⟩

/-- A projection that holds what a log says. -/
structure Holds (p : MemoryProjection) (log : List (StoredEvent MemoryEvent)) : Prop where
  valid : Valid p
  replacing : Replacing p
  entities : p.nodes.map NodeHistory.id = entities (ledger log)
  revisions : ∀ id, revisionsIn p id = revisionsOf log id
  facts : p.facts = facts (ledger log)
  retractions : ∀ id, p.retractions[id]? = (withdrawalOf (ledger log) id).map asRetraction
  position : p.lastGlobalPosition = log.getLast?.map fun event => event.metadata.globalPosition

variable {p : MemoryProjection} {log : List (StoredEvent MemoryEvent)} {event : StoredEvent MemoryEvent}

theorem holds_default (seeds : Seeds) : Holds (.default seeds) [] where
  valid := valid_default seeds
  replacing := replacing_default seeds
  entities := rfl
  revisions := fun _ => rfl
  facts := rfl
  retractions := fun _ => rfl
  position := rfl

theorem ledger_snoc (log : List (StoredEvent MemoryEvent)) (event : StoredEvent MemoryEvent) :
    ledger (log ++ [event]) = ledger log ++ [entryOf event] := List.map_append

theorem facts_snoc (log : List (StoredEvent MemoryEvent)) (event : StoredEvent MemoryEvent) :
    facts (ledger (log ++ [event])) = facts (ledger log) ++ (entryOf event).fact.toList := by
  rw [ledger_snoc, facts, List.filterMap_append]
  cases h : (entryOf event).fact <;> simp [facts, h]

theorem entities_snoc (log : List (StoredEvent MemoryEvent)) (event : StoredEvent MemoryEvent) :
    entities (ledger (log ++ [event])) = ((entryOf event).write.elim (entities (ledger log)) fun write =>
      if write.entity ∈ entities (ledger log) then entities (ledger log)
      else entities (ledger log) ++ [write.entity]) := by
  rw [ledger_snoc, entities, writes, List.filterMap_append]
  cases h : (entryOf event).write with
  | none => simp [entities, writes, h]
  | some write =>
      rw [List.filterMap_cons_some h, List.filterMap_nil, List.map_append, List.map_singleton, eraseDups_snoc]
      simp only [Option.elim_some, entities, writes, List.mem_eraseDups]

theorem withdrawalOf_snoc (log : List (StoredEvent MemoryEvent)) (event : StoredEvent MemoryEvent) (id : FactId) :
    withdrawalOf (ledger (log ++ [event])) id =
      ((entryOf event).withdrawal id).orElse fun _ => withdrawalOf (ledger log) id := by
  rw [ledger_snoc, withdrawalOf, List.filterMap_append]
  cases h : (entryOf event).withdrawal id with
  | none => simp [withdrawalOf, h]
  | some withdrawal =>
      rw [List.filterMap_cons_some h, List.filterMap_nil, List.getLast?_concat]
      rfl

theorem withdrawal_retracted (metadata : EventMetadata) (factId id : FactId) (validUntil : Timestamp)
    (evidence : Vec Evidence) : (entryOf ⟨metadata, .factRetracted factId validUntil evidence⟩).withdrawal id =
      if factId = id then some ⟨validUntil, metadata.recordedAt⟩ else none := rfl

theorem revisionsOf_snoc (log : List (StoredEvent MemoryEvent)) (event : StoredEvent MemoryEvent) (id : EntityId) :
    revisionsOf (log ++ [event]) id = revisionsOf log id ++ revisionsOf [event] id := List.filterMap_append

theorem Holds.applied (h : Holds p log) {change : Change} (ha : Admitted p event.metadata event.payload change) :
    Holds (change.applied p event) (log ++ [event]) := by
  refine ⟨h.valid.applied ha, h.replacing.applied h.valid ha, ?_, fun id => ?_, ?_, fun id => ?_,
    by rw [List.getLast?_concat]; rfl⟩
  · rw [entities_snoc, ← h.entities]
    rcases event with ⟨metadata, payload⟩
    cases ha with
    | @revise node index history _ known stored =>
        obtain ⟨other, ho, hid⟩ := h.valid.indexed.node_index.mp known
        have hmem : node.id ∈ p.nodes.map NodeHistory.id := hid ▸ List.mem_map_of_mem (List.mem_of_getElem? ho)
        exact (nodeIds_revise stored _).trans (if_pos hmem).symm
    | @add node _ unknown =>
        have hnew := h.valid.indexed.nodeLookup.get_eq_none.mp unknown
        exact List.map_append.trans (if_neg hnew).symm
    | record => rfl
    | retract => rfl
  · rw [revisionsOf_snoc, ← h.revisions, revisionsIn_applied h.valid ha]
  · rw [facts_snoc, ← h.facts]
    rcases event with ⟨metadata, payload⟩
    cases ha with
    | revise => exact (List.append_nil _).symm
    | add => exact (List.append_nil _).symm
    | record => rfl
    | retract => exact (List.append_nil _).symm
  · rw [withdrawalOf_snoc]
    rcases event with ⟨metadata, payload⟩
    cases ha with
    | revise => exact h.retractions id
    | add => exact h.retractions id
    | record => exact h.retractions id
    | @retract factId validUntil =>
        by_cases hid : factId = id
        · subst hid
          rw [withdrawal_retracted, if_pos rfl]
          exact retractions_retract_self factId _
        · rw [withdrawal_retracted, if_neg hid]
          exact (retractions_retract_ne hid _).trans (h.retractions id)

theorem Holds.continued {more : List (StoredEvent MemoryEvent)} {q : MemoryProjection} (h : Holds p log)
    (hc : Continued p more q) : Holds q (log ++ more) := by
  induction more generalizing p log with
  | nil =>
      obtain rfl : q = p := hc
      rwa [List.append_nil]
  | cons event rest ih =>
      obtain ⟨-, next, haccepted, hrest⟩ := hc
      obtain ⟨change, ha, rfl⟩ := accepted_eq haccepted
      have hnext := ih (h.applied ha) hrest
      rwa [List.append_assoc, List.singleton_append] at hnext

theorem writes_ledger (log : List (StoredEvent MemoryEvent)) :
    writes (ledger log) = (writesOf log).map fun write => ⟨write.node.id, write.node, write.recordedAt⟩ := by
  rw [writes, ledger, List.filterMap_map, writesOf, List.map_filterMap]
  refine List.filterMap_congr fun event _ => ?_
  rcases event with ⟨metadata, payload⟩
  cases payload <;> rfl

theorem valueAt_ledger (log : List (StoredEvent MemoryEvent)) (knownAt : Timestamp) (id : EntityId) :
    valueAt (ledger log) knownAt id = newestOf (revisionsOf log id) knownAt := by
  rw [← lastWritten_eq (writesOf_filter log id), valueAt, writes_ledger, List.filter_map, Latest.newest_map,
    Option.map_map, lastWritten]
  rfl

/-- What every read needs of the projection, from the log alone. -/
structure Reads (p : MemoryProjection) (log : List (StoredEvent MemoryEvent)) : Prop where
  holds : Holds p log
  rising : ∀ id, (revisionsOf log id).Pairwise Before

theorem reads_of_replay {seeds : Seeds}
    (h : replay (memory seeds) log = .ok p ∨ replayOwned (memory seeds) log = .ok p) : Reads p log := by
  have hc := continued_of_replay h
  exact ⟨(holds_default seeds).continued hc, hc.revisions_rising⟩

theorem Reads.visibleRevision_eq (h : Reads p log) {history : NodeHistory} (hh : history ∈ p.nodes)
    (knownAt : Timestamp) : visibleRevision history knownAt = valueAt (ledger log) knownAt history.id := by
  have hrevisions : history.revisions = revisionsOf log history.id := by
    rw [← h.holds.revisions, revisionsIn_of_mem h.holds.valid hh]
  rw [valueAt_ledger, ← visibleOf_eq_newestOf (h.rising _), ← hrevisions]
  rfl

theorem Reads.visibleNode_eq (h : Reads p log) (id : EntityId) (knownAt : Timestamp) :
    visibleNode p id knownAt = .ok (valueAt (ledger log) knownAt id) := by
  rw [visibleNode_revisionsIn h.holds.valid, h.holds.revisions, visibleOf_eq_newestOf (h.rising id), valueAt_ledger]

theorem Reads.entityKnown_iff (h : Reads p log) (id : EntityId) (knownAt : Timestamp) :
    EntityKnown p id knownAt ↔ (valueAt (ledger log) knownAt id).isSome = true := by
  rw [← mem_visibleNodes_ids h.holds.valid, Option.isSome_iff_exists, visibleNodes, List.mem_map]
  constructor
  · rintro ⟨node, hn, rfl⟩
    obtain ⟨history, hh, hv⟩ := List.mem_filterMap.mp hn
    refine ⟨node, ?_⟩
    rw [visibleRevision_id h.holds.valid hh hv, ← h.visibleRevision_eq hh, hv]
  · rintro ⟨node, hn⟩
    have hid : id ∈ p.nodes.map NodeHistory.id := by
      by_contra hout
      rw [valueAt_ledger, ← h.holds.revisions, revisionsIn_of_not_mem hout] at hn
      cases hn
    obtain ⟨history, hh, rfl⟩ := List.mem_map.mp hid
    rw [← h.visibleRevision_eq hh] at hn
    exact ⟨node, List.mem_filterMap.mpr ⟨history, hh, hn⟩, visibleRevision_id h.holds.valid hh hn⟩

theorem Reads.active_iff (h : Reads p log) (fact : MemoryFact) (clock : ProjectionClock) :
    (EntityKnown p fact.source clock.knownAt ∧ EntityKnown p fact.target clock.knownAt) ∧
        factIsActive p fact clock = true ↔ Current readFact (ledger log) (clockOf clock) fact := by
  rw [h.entityKnown_iff, h.entityKnown_iff, factIsActive_iff]
  have hreplaced : (∀ change, p.supersessions[fact.id]? = some change →
      clock.knownAt < change.recordedAt ∨ clock.validAt < change.validFrom) ↔
      ∀ other ∈ facts (ledger log), other.supersedes = some fact.id →
        clock.knownAt < other.recordedAt ∨ clock.validAt < other.validFrom := by
    rw [← h.holds.facts]
    constructor
    · intro hall other ho hs
      exact hall _ ((h.holds.replacing.records fact.id _).mpr ⟨other, ho, hs, rfl⟩)
    · intro hall change hchange
      obtain ⟨other, ho, hs, rfl⟩ := (h.holds.replacing.records fact.id change).mp hchange
      exact hall other ho hs
  have hwithdrawn : (∀ change, p.retractions[fact.id]? = some change →
      clock.knownAt < change.recordedAt ∨ clock.validAt < change.validUntil) ↔
      ∀ withdrawal, withdrawalOf (ledger log) fact.id = some withdrawal →
        clock.knownAt < withdrawal.recorded ∨ clock.validAt < withdrawal.ends := by
    rw [h.holds.retractions]
    constructor
    · intro hall withdrawal hw
      exact hall (asRetraction withdrawal) (by rw [hw]; rfl)
    · intro hall change hchange
      obtain ⟨withdrawal, hw, rfl⟩ := Option.map_eq_some_iff.mp hchange
      exact hall withdrawal hw
  rw [hreplaced, hwithdrawn]
  constructor
  · rintro ⟨⟨hsource, htarget⟩, hknown, hbegun, hlasts, hunreplaced, hkept⟩
    exact ⟨hknown, hbegun, hlasts, hunreplaced, hkept, hsource, htarget⟩
  · intro hc
    exact ⟨⟨hc.source, hc.target⟩, hc.known, hc.begun, hc.lasts, hc.unreplaced, hc.kept⟩

theorem Reads.view_eq (h : Reads p log) (clock : ProjectionClock) :
    view p clock = asView (stateAt readFact (ledger log) (clockOf clock)) := by
  classical
  rw [History.view_eq h.holds.valid, asView, stateAt]
  congr 1
  · rw [visibleNodes, ← h.holds.entities, List.filterMap_map]
    exact List.filterMap_congr fun history hh => h.visibleRevision_eq hh clock.knownAt
  · rw [h.holds.facts]
    refine List.filter_congr fun fact _ => ?_
    rw [Bool.eq_iff_iff, Bool.and_eq_true, decide_eq_true_iff, decide_eq_true_iff]
    exact h.active_iff fact clock

theorem Reads.supersededBy_eq (h : Reads p log) (id : FactId) : supersededBy p id =
    ((facts (ledger log)).find? fun fact => fact.supersedes = some id).map MemoryFact.id := by
  have hrecords := h.holds.replacing.records
  rw [supersededBy, ← h.holds.facts]
  cases hfound : p.facts.find? fun fact => fact.supersedes = some id with
  | none =>
      have hnone : p.supersessions[id]? = none := by
        by_contra hne
        obtain ⟨change, hchange⟩ := Option.ne_none_iff_exists'.mp hne
        obtain ⟨other, ho, hs, -⟩ := (hrecords id change).mp hchange
        exact List.find?_eq_none.mp hfound other ho (decide_eq_true hs)
      rw [hnone]
      rfl
  | some fact =>
      have hs : fact.supersedes = some id := by simpa using List.find?_some hfound
      rw [(hrecords id _).mpr ⟨fact, List.mem_of_find?_eq_some hfound, hs, rfl⟩]
      rfl

/-- Every read of a replayed projection is a reading of the log, with nothing of the indexes left in it. -/
theorem replay_reads_log (seeds : Seeds) (log : List (StoredEvent MemoryEvent)) (p : MemoryProjection)
    (h : replay (memory seeds) log = .ok p ∨ replayOwned (memory seeds) log = .ok p) :
    (∀ clock, viewRef p clock = asView (stateAt readFact (ledger log) (clockOf clock))) ∧
    (∀ id knownAt, visibleNode p id knownAt = .ok (valueAt (ledger log) knownAt id)) ∧
    (∀ id, incidentFactIds p id =
      .ok (((facts (ledger log)).filter fun fact => Touches id fact).map MemoryFact.id)) ∧
    (∀ id, supersededBy p id =
      ((facts (ledger log)).find? fun fact => fact.supersedes = some id).map MemoryFact.id) ∧
    p.lastGlobalPosition = log.getLast?.map fun event => event.metadata.globalPosition := by
  have hreads := reads_of_replay h
  refine ⟨hreads.view_eq, hreads.visibleNode_eq, fun id => ?_, hreads.supersededBy_eq, hreads.holds.position⟩
  rw [← hreads.holds.facts, hreads.holds.valid.incidentFactIds_eq]

theorem replay_reads_log_retracted_once : ∃ p, replay (memory ⟨1, 2⟩) Common.retractedOnce = .ok p ∧
    ∀ clock, viewRef p clock = asView (stateAt readFact (ledger Common.retractedOnce) (clockOf clock)) := by
  obtain ⟨p, hp⟩ := exists_ok_of_isOk (x := replay (memory ⟨1, 2⟩) Common.retractedOnce) (by decide +kernel)
  exact ⟨p, hp, (replay_reads_log ⟨1, 2⟩ Common.retractedOnce p (.inl hp)).1⟩

end WeavatrixMemory.Projection.Semantics
