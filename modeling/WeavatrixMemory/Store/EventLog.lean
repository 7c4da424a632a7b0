import WeavatrixMemory.Library.Logs
import WeavatrixMemory.Projection.Replay
import WeavatrixMemory.Store.InMemory

namespace WeavatrixMemory.Store.EventLog

open Error Identity Domain Logs InMemory Projection.Replay

variable {E : Type}

def positionsOf (log : List (StoredEvent E)) (stream : StreamId) : List Nat :=
  (log.zipIdx.filter (fun e => e.1.metadata.streamId = stream)).map (·.2)

/-- The law of the log: an event has the next position, the next version of its stream and a new
identifier. -/
structure Continues (log : List (StoredEvent E)) (event : StoredEvent E) : Prop where
  position : event.metadata.globalPosition.toNat = log.length
  version : event.metadata.streamVersion.toNat = (positionsOf log event.metadata.streamId).length
  fresh : event.metadata.id ∉ log.map (·.metadata.id)

def ofLog (log : List (StoredEvent E)) : InMemoryStore E where
  events := log
  streams stream := if positionsOf log stream = [] then none else some (positionsOf log stream)
  eventIds id := decide (id ∈ log.map (·.metadata.id))

theorem positionsOf_append (log xs : List (StoredEvent E)) (stream : StreamId) :
    positionsOf (log ++ xs) stream = positionsOf log stream ++
      ((xs.zipIdx log.length).filter (fun e => e.1.metadata.streamId = stream)).map (·.2) := by
  rw [positionsOf, List.zipIdx_append, List.filter_append, List.map_append, Nat.zero_add]
  rfl

theorem positionsOf_snoc (log : List (StoredEvent E)) (event : StoredEvent E) (stream : StreamId) :
    positionsOf (log ++ [event]) stream =
      positionsOf log stream ++ (if event.metadata.streamId = stream then [log.length] else []) := by
  rw [positionsOf_append]
  by_cases h : event.metadata.streamId = stream <;> simp [h]

theorem positionsOf_other {log xs : List (StoredEvent E)} {stream : StreamId}
    (h : ∀ event ∈ xs, event.metadata.streamId ≠ stream) :
    positionsOf (log ++ xs) stream = positionsOf log stream := by
  rw [positionsOf_append]
  have hnone : (xs.zipIdx log.length).filter (fun e => e.1.metadata.streamId = stream) = [] := by
    rw [List.filter_eq_nil_iff]
    intro e he
    simpa using h e.1 (List.fst_mem_of_mem_zipIdx he)
  rw [hnone, List.map_nil, List.append_nil]

theorem mem_positionsOf {log : List (StoredEvent E)} {stream : StreamId} {i : Nat} :
    i ∈ positionsOf log stream ↔ ∃ event, log[i]? = some event ∧ event.metadata.streamId = stream := by
  rw [positionsOf, List.mem_map]
  constructor
  · intro h
    obtain ⟨⟨event, j⟩, he, hj⟩ := h
    obtain ⟨hmem, hs⟩ := List.mem_filter.mp he
    obtain rfl : j = i := hj
    exact ⟨event, List.mem_zipIdx_iff_getElem?.mp hmem, of_decide_eq_true hs⟩
  · intro h
    obtain ⟨event, he, hs⟩ := h
    exact ⟨(event, i), List.mem_filter.mpr ⟨List.mem_zipIdx_iff_getElem?.mpr he, decide_eq_true hs⟩, rfl⟩

theorem positionsOf_ascending (log : List (StoredEvent E)) (stream : StreamId) :
    (positionsOf log stream).Pairwise (· < ·) := by
  have hall : (log.zipIdx.map (·.2)).Pairwise (· < ·) := by
    have hrange : log.zipIdx.map (·.2) = List.range' 0 log.length := List.zipIdx_map_snd 0 log
    rw [hrange]
    exact List.pairwise_lt_range'
  exact hall.sublist (List.filter_sublist.map _)

theorem streams_getD (log : List (StoredEvent E)) (stream : StreamId) :
    ((ofLog log).streams stream).getD [] = positionsOf log stream := by
  rw [ofLog]
  by_cases h : positionsOf log stream = [] <;> simp [h]

theorem positionsOf_version {log : List (StoredEvent E)} (h : Lawful Continues log) {stream : StreamId}
    {k i : Nat} (hk : (positionsOf log stream)[k]? = some i) :
    ∃ event, log[i]? = some event ∧ event.metadata.streamId = stream ∧
      event.metadata.streamVersion.toNat = k := by
  revert k i
  apply h.induction
  · intro k i hk
    cases hk
  · intro log event _ hc ih k i hk
    rw [positionsOf_snoc] at hk
    by_cases hlt : k < (positionsOf log stream).length
    · rw [List.getElem?_append_left hlt] at hk
      obtain ⟨earlier, he, hs, hv⟩ := ih hk
      have hi := (List.getElem?_eq_some_iff.mp he).1
      exact ⟨earlier, by rwa [List.getElem?_append_left hi], hs, hv⟩
    · rw [List.getElem?_append_right (Nat.not_lt.mp hlt)] at hk
      by_cases hs : event.metadata.streamId = stream
      · rw [if_pos hs] at hk
        obtain ⟨hzero, hi⟩ := List.getElem?_eq_some_iff.mp hk
        rw [List.length_singleton, Nat.lt_one_iff] at hzero
        simp only [hzero, List.getElem_cons_zero] at hi
        refine ⟨event, ?_, hs, ?_⟩
        · rw [← hi, List.getElem?_concat_length]
        · have hv := hc.version
          rw [hs] at hv
          omega
      · rw [if_neg hs] at hk
        cases hk

theorem streamVersion_ofLog {log : List (StoredEvent E)} (h : Lawful Continues log) (stream : StreamId) :
    ∃ actual, streamVersion (ofLog log) stream = .ok actual ∧
      nextOf actual = (positionsOf log stream).length := by
  rw [streamVersion, ofLog]
  by_cases hempty : positionsOf log stream = []
  · simp only [hempty, if_true]
    exact ⟨none, rfl, rfl⟩
  · obtain ⟨i, hi⟩ : ∃ i, (positionsOf log stream).getLast? = some i :=
      ⟨_, List.getLast?_eq_some_getLast hempty⟩
    have hk : (positionsOf log stream)[(positionsOf log stream).length - 1]? = some i := by
      rw [← List.getLast?_eq_getElem?, hi]
    obtain ⟨event, he, -, hv⟩ := positionsOf_version h hk
    have hpos := List.length_pos_iff.mpr hempty
    simp only [if_neg hempty, Option.bind_some, hi, getAt_eq_ok.mpr he, ok_bind]
    refine ⟨_, rfl, ?_⟩
    rw [nextOf, hv]
    omega

theorem eventIds_snoc (log : List (StoredEvent E)) (event : StoredEvent E) :
    (ofLog (log ++ [event])).eventIds = Function.update (ofLog log).eventIds event.metadata.id true := by
  funext id
  by_cases h : id = event.metadata.id <;> simp [ofLog, h]

theorem ofLog_snoc (log : List (StoredEvent E)) (event : StoredEvent E) :
    ofLog (log ++ [event]) =
      { events := log ++ [event]
        streams := Function.update (ofLog log).streams event.metadata.streamId
          (some (positionsOf log event.metadata.streamId ++ [log.length]))
        eventIds := Function.update (ofLog log).eventIds event.metadata.id true } := by
  have hstreams : (ofLog (log ++ [event])).streams =
      Function.update (ofLog log).streams event.metadata.streamId
        (some (positionsOf log event.metadata.streamId ++ [log.length])) := by
    funext stream
    by_cases h : stream = event.metadata.streamId
    · subst h
      simp [ofLog, positionsOf_snoc]
    · rw [Function.update_of_ne h]
      simp only [ofLog, positionsOf_snoc, if_neg (Ne.symm h), List.append_nil]
  rw [← hstreams, ← eventIds_snoc]
  rfl

theorem restoreEvent_eq_ok {log : List (StoredEvent E)} (h : Lawful Continues log) {event : StoredEvent E}
    {t : InMemoryStore E} :
    restoreEvent (ofLog log) event = .ok t ↔ Continues log event ∧ t = ofLog (log ++ [event]) := by
  obtain ⟨actual, ha, hn⟩ := streamVersion_ofLog h event.metadata.streamId
  have hid : (ofLog log).eventIds event.metadata.id = true ↔ event.metadata.id ∈ log.map (·.metadata.id) :=
    decide_eq_true_iff
  have hevents : (ofLog log).events = log := rfl
  rw [restoreEvent, ha, ok_bind]
  simp only [bind_eq_ok, throwIf_eq_ok, u64TryFrom_eq_ok, following_eq_ok, hn, hid, hevents,
    streams_getD, ne_eq, not_not, Except.ok.injEq, ofLog_snoc]
  constructor
  · intro h
    obtain ⟨p, hp, _, rfl, v, hv, _, rfl, _, hfresh, rfl⟩ := h
    exact ⟨⟨hp, hv, hfresh⟩, rfl⟩
  · intro h
    obtain ⟨hc, rfl⟩ := h
    exact ⟨_, hc.position, (), rfl, _, hc.version, (), rfl, (), hc.fresh, rfl⟩

theorem ofLog_nil : (ofLog [] : InMemoryStore E) = .default := by
  rw [ofLog, InMemoryStore.default]
  congr

/-- A restored store is the store of a lawful log. -/
theorem restore_eq_ok {log : List (StoredEvent E)} {t : InMemoryStore E} :
    restore log = .ok t ↔ Lawful Continues log ∧ t = ofLog log := by
  have hrun := @foldlM_eq_ok _ _ _ Continues restoreEvent ofLog
    (fun log event t h => restoreEvent_eq_ok h) [] log lawful_nil t
  rw [ofLog_nil] at hrun
  exact hrun

end WeavatrixMemory.Store.EventLog
