import WeavatrixMemory.Store.EventLog

namespace WeavatrixMemory.Store.Commit

open Error Identity Domain Logs InMemory EventLog Projection.Replay

variable {E : Type}

def proposal (event : StoredEvent E) : NewEvent E where
  id := event.metadata.id
  eventType := event.metadata.eventType
  occurredAt := event.metadata.occurredAt
  recordedAt := event.metadata.recordedAt
  agentId := event.metadata.agentId
  sessionId := event.metadata.sessionId
  correlationId := event.metadata.correlationId
  causationId := event.metadata.causationId
  payload := event.payload

structure Committable (log : List (StoredEvent E)) (stream : StreamId) (batch : List (NewEvent E))
    (committed : List (StoredEvent E)) : Prop where
  grows : Grows Continues log committed
  proposed : committed.map proposal = batch
  stream : ∀ event ∈ committed, event.metadata.streamId = stream

theorem validateUniqueIds_eq_ok {known : EventId → Bool} {batch : List EventId} {events : List (NewEvent E)}
    {u : Unit} : validateUniqueIds known batch events = .ok u ↔
      (∀ event ∈ events, known event.id = false ∧ event.id ∉ batch) ∧ (events.map (·.id)).Nodup := by
  induction events generalizing batch with
  | nil => simp [validateUniqueIds]
  | cons event rest ih =>
      rw [validateUniqueIds, unit_bind_eq_ok, throwIf_eq_ok, ih, not_or, Bool.not_eq_true, List.forall_mem_cons,
        List.map_cons, List.nodup_cons]
      simp only [List.mem_cons, not_or, List.mem_map, not_exists, not_and]
      constructor
      · intro h
        obtain ⟨hevent, hrest, hnodup⟩ := h
        exact ⟨⟨hevent, fun e he => ⟨(hrest e he).1, (hrest e he).2.2⟩⟩, fun e he => (hrest e he).2.1, hnodup⟩
      · intro h
        obtain ⟨⟨hevent, hrest⟩, hnew, hnodup⟩ := h
        exact ⟨hevent, fun e he => ⟨(hrest e he).1, hnew e he, (hrest e he).2⟩, hnodup⟩

theorem stampEvents_cons {stream : StreamId} {startVersion startPosition : UInt64} {offset : Nat}
    {event : NewEvent E} {rest : List (NewEvent E)} {committed : List (StoredEvent E)}
    (h : stampEvents stream startVersion startPosition offset (event :: rest) = .ok committed) :
    ∃ stored later, committed = stored :: later ∧
      stampEvents stream startVersion startPosition (offset + 1) rest = .ok later ∧
      proposal stored = event ∧ stored.metadata.streamId = stream ∧
      stored.metadata.streamVersion.toNat = startVersion.toNat + offset ∧
      stored.metadata.globalPosition.toNat = startPosition.toNat + offset := by
  simp only [stampEvents, bind_eq_ok, u64TryFrom_eq_ok, checkedAdd_eq_ok, Except.ok.injEq] at h
  obtain ⟨shift, rfl, version, hv, position, hp, later, hlater, rfl⟩ := h
  exact ⟨_, later, rfl, hlater, rfl, rfl, hv, hp⟩

theorem stampEvents_committable {stream : StreamId} {startVersion startPosition : UInt64}
    (batch : List (NewEvent E)) {offset : Nat} {committed log : List (StoredEvent E)}
    (h : stampEvents stream startVersion startPosition offset batch = .ok committed)
    (hversion : startVersion.toNat + offset = (positionsOf log stream).length)
    (hposition : startPosition.toNat + offset = log.length)
    (hfresh : ∀ event ∈ batch, event.id ∉ log.map (·.metadata.id)) (hnodup : (batch.map (·.id)).Nodup) :
    Committable log stream batch committed := by
  induction batch generalizing offset committed log with
  | nil =>
      obtain rfl := Except.ok.inj h
      exact ⟨trivial, rfl, fun _ h => absurd h List.not_mem_nil⟩
  | cons event rest ih =>
      obtain ⟨stored, later, rfl, hlater, hproposal, rfl, hv, hp⟩ := stampEvents_cons h
      obtain ⟨hnew, hfresh⟩ := List.forall_mem_cons.mp hfresh
      obtain ⟨hother, hnodup⟩ := List.nodup_cons.mp hnodup
      have hid : stored.metadata.id = event.id := congrArg NewEvent.id hproposal
      rw [← hid] at hnew
      have hcontinues : Continues log stored := ⟨hp.trans hposition, hv.trans hversion, hnew⟩
      have hrest := @ih (offset + 1) later (log ++ [stored]) hlater
        (by rw [positionsOf_snoc, if_pos rfl, List.length_append, ← hversion]; rfl)
        (by rw [List.length_append, ← hposition]; rfl) (by
          intro e he
          rw [List.map_append, List.mem_append, not_or, List.map_singleton, List.mem_singleton, hid]
          exact ⟨hfresh e he, fun hsame => hother (List.mem_map.mpr ⟨e, he, hsame⟩)⟩) hnodup
      refine ⟨⟨hcontinues, hrest.grows⟩, ?_, List.forall_mem_cons.mpr ⟨rfl, hrest.stream⟩⟩
      rw [List.map_cons, hrest.proposed, hproposal]

theorem prepareAppend_committable {log : List (StoredEvent E)} (h : Lawful Continues log) {stream : StreamId}
    {expected : ExpectedVersion} {batch : List (NewEvent E)} {committed : List (StoredEvent E)}
    (hc : prepareAppend (ofLog log) stream expected batch = .ok committed) :
    Committable log stream batch committed ∧
      ∃ actual, streamVersion (ofLog log) stream = .ok actual ∧ expected.admits actual = true := by
  obtain ⟨actual, ha, hn⟩ := streamVersion_ofLog h stream
  have hevents : (ofLog log).events = log := rfl
  simp only [prepareAppend, ha, ok_bind, bind_eq_ok, validateExpected, throwIf_eq_ok, validateUniqueIds_eq_ok,
    following_eq_ok, u64TryFrom_eq_ok, hn, hevents, Bool.not_eq_false] at hc
  obtain ⟨_, hadmits, _, ⟨hids, hnodup⟩, version, hv, position, hp, hstamp⟩ := hc
  refine ⟨stampEvents_committable batch hstamp hv hp (fun event he => ?_) hnodup, actual, ha, hadmits⟩
  exact of_decide_eq_false (hids event he).1

theorem length_positionsOf_le (log : List (StoredEvent E)) (stream : StreamId) :
    (positionsOf log stream).length ≤ log.length := by
  rw [positionsOf, List.length_map]
  exact (List.length_filter_le _ _).trans_eq (List.length_zipIdx ..)

theorem exists_stampEvents (stream : StreamId) {startVersion startPosition : UInt64} (batch : List (NewEvent E))
    {offset : Nat} (hversion : startVersion.toNat + offset + batch.length ≤ 2 ^ 64)
    (hposition : startPosition.toNat + offset + batch.length ≤ 2 ^ 64) :
    ∃ committed, stampEvents stream startVersion startPosition offset batch = .ok committed := by
  induction batch generalizing offset with
  | nil => exact ⟨[], rfl⟩
  | cons event rest ih =>
      rw [List.length_cons] at hversion hposition
      obtain ⟨later, hlater⟩ := @ih (offset + 1) (by omega) (by omega)
      have hshift := u64TryFrom_of_lt (show offset < 2 ^ 64 by omega)
      have hoffset : (UInt64.ofNat offset).toNat = offset :=
        UInt64.toNat_ofNat_of_lt' (show offset < 2 ^ 64 by omega)
      have hadd {start : UInt64} (hstart : start.toNat + offset < 2 ^ 64) :
          checkedAdd start (UInt64.ofNat offset) = .ok (UInt64.ofNat (start.toNat + offset)) := by
        rw [checkedAdd, hoffset]
        exact u64TryFrom_of_lt hstart
      simp only [stampEvents, hshift, ok_bind, hadd (show startVersion.toNat + offset < 2 ^ 64 by omega),
        hadd (show startPosition.toNat + offset < 2 ^ 64 by omega), hlater]
      exact ⟨_, rfl⟩

theorem exists_prepareAppend {log : List (StoredEvent E)} (h : Lawful Continues log) {stream : StreamId}
    {expected : ExpectedVersion} {batch : List (NewEvent E)} (hfits : log.length + batch.length < 2 ^ 64)
    (hadmits : ∀ actual, streamVersion (ofLog log) stream = .ok actual → expected.admits actual = true)
    (hfresh : ∀ event ∈ batch, event.id ∉ log.map (·.metadata.id)) (hnodup : (batch.map (·.id)).Nodup) :
    ∃ committed, prepareAppend (ofLog log) stream expected batch = .ok committed := by
  obtain ⟨actual, ha, hn⟩ := streamVersion_ofLog h stream
  have hle := length_positionsOf_le log stream
  have hexpected : validateExpected stream expected actual = .ok () :=
    throwIf_of_not (Bool.not_eq_false _ ▸ hadmits actual ha) _
  have hids : validateUniqueIds (ofLog log).eventIds [] batch = .ok () :=
    validateUniqueIds_eq_ok.mpr ⟨fun event he => ⟨decide_eq_false (hfresh event he), List.not_mem_nil⟩, hnodup⟩
  have hcount : (UInt64.ofNat (positionsOf log stream).length).toNat = (positionsOf log stream).length :=
    UInt64.toNat_ofNat_of_lt' (show (positionsOf log stream).length < 2 ^ 64 by omega)
  have hlength : (UInt64.ofNat log.length).toNat = log.length :=
    UInt64.toNat_ofNat_of_lt' (show log.length < 2 ^ 64 by omega)
  have hversion : following actual = .ok (UInt64.ofNat (positionsOf log stream).length) := by
    rw [following_eq_ok, hn, hcount]
  have hposition : u64TryFrom (ofLog log).events.length = .ok (UInt64.ofNat log.length) :=
    u64TryFrom_of_lt (by exact (Nat.le_add_right _ _).trans_lt hfits)
  rw [prepareAppend, ha, ok_bind, hexpected, ok_bind, hids, ok_bind, hversion, ok_bind, hposition, ok_bind]
  apply exists_stampEvents <;> omega

theorem prepareAppend_proposal {log : List (StoredEvent E)} (h : Lawful Continues log) {event : StoredEvent E}
    (hc : Continues log event) :
    prepareAppend (ofLog log) event.metadata.streamId .any [proposal event] = .ok [event] := by
  obtain ⟨actual, ha, hn⟩ := streamVersion_ofLog h event.metadata.streamId
  have hids : validateUniqueIds (ofLog log).eventIds [] [proposal event] = .ok () := by
    rw [validateUniqueIds_eq_ok]
    refine ⟨?_, List.nodup_singleton _⟩
    rw [List.forall_mem_singleton]
    exact ⟨decide_eq_false hc.fresh, List.not_mem_nil⟩
  have hversion : following actual = .ok event.metadata.streamVersion := by
    rw [following_eq_ok, hn, hc.version]
  have hposition : u64TryFrom (ofLog log).events.length = .ok event.metadata.globalPosition := by
    rw [u64TryFrom_eq_ok, hc.position]
    rfl
  have hexpected : validateExpected event.metadata.streamId .any actual = .ok () := rfl
  have hzero : u64TryFrom 0 = .ok 0 := rfl
  have hadd (w : UInt64) : checkedAdd w 0 = .ok w := checkedAdd_eq_ok.mpr rfl
  rw [prepareAppend, ha, ok_bind, hexpected, ok_bind, hids, ok_bind, hversion, ok_bind, hposition, ok_bind]
  simp only [stampEvents, hzero, hadd, ok_bind]
  rfl

theorem stampOwnedEvents_eq (stream : StreamId) (startVersion startPosition : UInt64) (offset : Nat)
    (batch : List (NewEvent E)) :
    stampOwnedEvents stream startVersion startPosition offset batch =
      stampEvents stream startVersion startPosition offset batch := by
  induction batch generalizing offset with
  | nil => rfl
  | cons event rest ih =>
      rw [stampOwnedEvents, stampEvents]
      simp only [ih]

theorem prepareAppendOwned_eq (s : InMemoryStore E) (stream : StreamId) (expected : ExpectedVersion)
    (batch : List (NewEvent E)) :
    prepareAppendOwned s stream expected batch = prepareAppend s stream expected batch := by
  rw [prepareAppendOwned, prepareAppend]
  simp only [stampOwnedEvents_eq]

theorem commitPreparedOwned_eq (committed : List (StoredEvent E)) :
    commitPreparedOwned committed = commitPrepared committed := rfl

theorem pushEvents_ofLog {stream : StreamId} {streams : StreamId → Option (List Nat)}
    (committed : List (StoredEvent E)) (hstream : ∀ event ∈ committed, event.metadata.streamId = stream)
    (log : List (StoredEvent E)) :
    pushEvents committed (positionsOf log stream) { ofLog log with streams := streams } =
      (positionsOf (log ++ committed) stream, { ofLog (log ++ committed) with streams := streams }) := by
  induction committed generalizing log with
  | nil => rw [List.append_nil, pushEvents]
  | cons event rest ih =>
      obtain ⟨he, hrest⟩ := List.forall_mem_cons.mp hstream
      have hpositions : positionsOf (log ++ [event]) stream = positionsOf log stream ++ [log.length] := by
        rw [positionsOf_snoc, if_pos he]
      have hids := eventIds_snoc log event
      have hnext := ih hrest (log ++ [event])
      rw [hpositions, List.append_assoc, List.singleton_append] at hnext
      rw [pushEvents, ← hnext]
      simp only [← hids]
      rfl

theorem commitPrepared_ofLog {log committed : List (StoredEvent E)} {stream : StreamId}
    (hstream : ∀ event ∈ committed, event.metadata.streamId = stream) :
    commitPrepared committed (ofLog log) = ofLog (log ++ committed) := by
  cases committed with
  | nil => rw [commitPrepared, List.append_nil]
  | cons first rest =>
      obtain ⟨hfirst, -⟩ := List.forall_mem_cons.mp hstream
      have hpush := @pushEvents_ofLog _ stream (ofLog log).streams (first :: rest) hstream log
      have hstreams : (ofLog (log ++ first :: rest)).streams =
          Function.update (ofLog log).streams stream (some (positionsOf (log ++ first :: rest) stream)) := by
        funext other
        by_cases ho : other = stream
        · subst ho
          have hne : positionsOf (log ++ first :: rest) other ≠ [] := by
            have hmem : log.length ∈ positionsOf (log ++ first :: rest) other :=
              mem_positionsOf.mpr ⟨first, by simp, hfirst⟩
            exact List.ne_nil_of_mem hmem
          rw [Function.update_self, ofLog]
          exact if_neg hne
        · rw [Function.update_of_ne ho]
          have hsame : positionsOf (log ++ first :: rest) other = positionsOf log other := by
            apply positionsOf_other
            intro event he
            rw [hstream event he]
            exact Ne.symm ho
          simp only [ofLog, hsame]
      rw [commitPrepared, hfirst, streams_getD]
      rw [show pushEvents (first :: rest) (positionsOf log stream) (ofLog log) = _ from hpush]
      simp only [← hstreams]

theorem append_ofLog {log : List (StoredEvent E)} (h : Lawful Continues log) (stream : StreamId)
    (expected : ExpectedVersion) (batch : List (NewEvent E)) :
    append stream expected batch (ofLog log) =
      match prepareAppend (ofLog log) stream expected batch with
      | .ok committed => .ok committed (ofLog (log ++ committed))
      | .error e => .error e (ofLog log) := by
  rw [append, bind_apply, get_apply]
  cases hc : prepareAppend (ofLog log) stream expected batch with
  | error e =>
      simp only [hc]
      rfl
  | ok committed =>
      simp only [hc, ← commitPrepared_ofLog (prepareAppend_committable h hc).1.stream]
      rfl

end WeavatrixMemory.Store.Commit
