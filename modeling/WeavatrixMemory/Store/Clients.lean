import Mathlib.Logic.Relation
import WeavatrixMemory.Store.Validators

namespace WeavatrixMemory.Store.Clients

open Error Identity Domain Logs InMemory EventLog Commit Validators Relation

variable {E Client : Type}

/-- What an accepted append does: the batch is at the end of the log and of its stream, and the
other streams are as they were. -/
structure Appended (s : InMemoryStore E) (stream : StreamId) (batch : List (NewEvent E))
    (committed : List (StoredEvent E)) (t : InMemoryStore E) : Prop where
  events : t.events = s.events ++ committed
  proposed : committed.map proposal = batch
  sameStream : ∀ event ∈ committed, event.metadata.streamId = stream
  loaded : ∃ earlier, loadStream s stream none = .ok earlier ∧
    loadStream t stream none = .ok (earlier ++ committed)
  others : ∀ other, other ≠ stream → t.streams other = s.streams other ∧
    streamVersion t other = streamVersion s other ∧ loadStream t other none = loadStream s other none

theorem loadStream_ofLog (log : List (StoredEvent E)) (stream : StreamId) :
    loadStream (ofLog log) stream none =
      .ok (log.filter (fun event => event.metadata.streamId = stream)) := by
  have hmap := mapM_getAt log (log.zipIdx.filter (fun e => e.1.metadata.streamId = stream)) (by
    intro e he
    exact List.mem_zipIdx_iff_getElem?.mp (List.mem_filter.mp he).1)
  have hfirst : (log.zipIdx.filter (fun e => e.1.metadata.streamId = stream)).map (·.1) =
      log.filter (fun event => event.metadata.streamId = stream) := by
    have hfilter : (log.zipIdx.map Prod.fst).filter (fun event => event.metadata.streamId = stream) =
        (log.zipIdx.filter (fun e => e.1.metadata.streamId = stream)).map Prod.fst := List.filter_map
    rw [List.zipIdx_map_fst] at hfilter
    exact hfilter.symm
  have hevents : (ofLog log).events = log := rfl
  rw [loadStream, streams_getD, hevents, positionsOf, hmap, ok_bind, hfirst]
  exact congrArg Except.ok (List.filter_eq_self.mpr fun _ _ => rfl)

theorem Committable.appended {log : List (StoredEvent E)} (h : Lawful Continues log) {stream : StreamId}
    {batch : List (NewEvent E)} {committed : List (StoredEvent E)}
    (hc : Committable log stream batch committed) :
    Appended (ofLog log) stream batch committed (ofLog (log ++ committed)) where
  events := rfl
  proposed := hc.proposed
  sameStream := hc.stream
  loaded := by
    refine ⟨_, loadStream_ofLog log stream, ?_⟩
    rw [loadStream_ofLog, List.filter_append]
    congr 2
    apply List.filter_eq_self.mpr
    intro event he
    exact decide_eq_true (hc.stream event he)
  others := fun other ho => by
    have hne : ∀ event ∈ committed, event.metadata.streamId ≠ other := by
      intro event he
      rw [hc.stream event he]
      exact ho.symm
    have hpositions := @positionsOf_other _ log committed other hne
    refine ⟨?_, ?_, ?_⟩
    · simp only [ofLog, hpositions]
    · obtain ⟨actual, ha, hn⟩ := streamVersion_ofLog h other
      obtain ⟨actual', ha', hn'⟩ := streamVersion_ofLog (lawful_append.mpr ⟨h, hc.grows⟩) other
      rw [hpositions, ← hn] at hn'
      rw [ha, ha', nextOf_inj hn']
    · rw [loadStream_ofLog, loadStream_ofLog, List.filter_append]
      congr 1
      apply List.append_right_eq_self.mpr
      apply List.filter_eq_nil_iff.mpr
      intro event he
      simpa using hne event he

inductive AppendPath
  | borrowed
  | owned
  | receipt

def AppendPath.run (stream : StreamId) (expected : ExpectedVersion) (batch : List (NewEvent E))
    (s : InMemoryStore E) : AppendPath → Bool × InMemoryStore E
  | .borrowed => (accepted (append stream expected batch s), after (append stream expected batch s))
  | .owned => (accepted (appendOwned stream expected batch s), after (appendOwned stream expected batch s))
  | .receipt =>
      (accepted (appendOwnedReceipt stream expected batch s), after (appendOwnedReceipt stream expected batch s))

/-- Clients of one store: what each of them has read last, and against which observations a
non-empty append has succeeded. -/
structure System (Client E : Type) where
  store : InMemoryStore E
  seen : Client → Option (StreamId × Option UInt64)
  won : List (StreamId × Option UInt64)

def expectation : Option UInt64 → ExpectedVersion
  | none => .noStream
  | some version => .exact version

def System.attempt (s : System Client E) (path : AppendPath) (stream : StreamId) (version : Option UInt64)
    (batch : List (NewEvent E)) : System Client E :=
  let (success, store) := path.run stream (expectation version) batch s.store
  { s with
    store := store
    won := if success && !batch.isEmpty then (stream, version) :: s.won else s.won }

theorem run_eq (path : AppendPath) (stream : StreamId) (expected : ExpectedVersion) (batch : List (NewEvent E))
    (s : InMemoryStore E) : path.run stream expected batch s =
      (accepted (append stream expected batch s), after (append stream expected batch s)) := by
  cases path with
  | borrowed => rfl
  | owned => rw [AppendPath.run, appendOwned_eq]
  | receipt =>
      rw [AppendPath.run, appendOwnedReceipt_eq]
      cases append stream expected batch s <;> rfl

/-- A won observation is behind the version of its stream. -/
structure Fair (s : System Client E) : Prop where
  log : ∃ log, Lawful Continues log ∧ s.store = ofLog log ∧
    ∀ o ∈ s.won, nextOf o.2 < (positionsOf log o.1).length
  nodup : s.won.Nodup

theorem admits_expectation {version actual : Option UInt64} (h : (expectation version).admits actual = true) :
    actual = version := by
  cases version with
  | none => exact Option.isNone_iff_eq_none.mp h
  | some version => exact eq_of_beq h

theorem length_positionsOf_committed {log committed : List (StoredEvent E)} {stream : StreamId}
    (h : ∀ event ∈ committed, event.metadata.streamId = stream) :
    (positionsOf (log ++ committed) stream).length = (positionsOf log stream).length + committed.length := by
  have hall : (committed.zipIdx log.length).filter (fun e => e.1.metadata.streamId = stream) =
      committed.zipIdx log.length := by
    apply List.filter_eq_self.mpr
    intro e he
    exact decide_eq_true (h e.1 (List.fst_mem_of_mem_zipIdx he))
  rw [positionsOf_append, hall, List.length_append, List.length_map, List.length_zipIdx]

theorem Fair.won {log committed : List (StoredEvent E)} {seen : Client → Option (StreamId × Option UInt64)}
    {won : List (StreamId × Option UInt64)} {stream : StreamId} {version : Option UInt64}
    {batch : List (NewEvent E)} (hl : Lawful Continues log)
    (h : ∀ o ∈ won, nextOf o.2 < (positionsOf log o.1).length) (hnodup : won.Nodup)
    (hp : prepareAppend (ofLog log) stream (expectation version) batch = .ok committed) :
    Fair (⟨ofLog (log ++ committed), seen,
      if !batch.isEmpty then (stream, version) :: won else won⟩ : System Client E) := by
  obtain ⟨hc, actual, ha, hadmits⟩ := prepareAppend_committable hl hp
  have hlawful : Lawful Continues (log ++ committed) := lawful_append.mpr ⟨hl, hc.grows⟩
  have hcurrent : nextOf version = (positionsOf log stream).length := by
    obtain ⟨actual', ha', hn⟩ := streamVersion_ofLog hl stream
    rw [ha] at ha'
    rw [← hn, ← Except.ok.inj ha', admits_expectation hadmits]
  have hgrown : ∀ o ∈ won, nextOf o.2 < (positionsOf (log ++ committed) o.1).length := by
    intro o ho
    rw [positionsOf_append, List.length_append]
    exact Nat.lt_add_right _ (h o ho)
  cases batch with
  | nil => exact ⟨⟨_, hlawful, rfl, hgrown⟩, hnodup⟩
  | cons event rest =>
      have hpos : 0 < committed.length := by
        rw [← List.length_map proposal, hc.proposed]
        exact Nat.succ_pos _
      refine ⟨⟨_, hlawful, rfl, List.forall_mem_cons.mpr ⟨?_, hgrown⟩⟩, List.nodup_cons.mpr ⟨fun hm => ?_, hnodup⟩⟩
      · simp only [length_positionsOf_committed hc.stream, hcurrent]
        omega
      · -- An earlier success against the same observation would be behind by now.
        have hbehind := h _ hm
        rw [hcurrent] at hbehind
        exact lt_irrefl _ hbehind

variable [DecidableEq Client]

/-- The steps of the clients, in any order. Others may append with any expectation in between. -/
inductive Step : System Client E → System Client E → Prop
  | read {s : System Client E} (client : Client) (stream : StreamId) (version : Option UInt64)
      (h : streamVersion s.store stream = .ok version) :
      Step s { s with seen := Function.update s.seen client (some (stream, version)) }
  | append {s : System Client E} (client : Client) (path : AppendPath) (stream : StreamId)
      (version : Option UInt64) (batch : List (NewEvent E)) (h : s.seen client = some (stream, version)) :
      Step s (s.attempt path stream version batch)
  | other {s : System Client E} (path : AppendPath) (stream : StreamId) (expected : ExpectedVersion)
      (batch : List (NewEvent E)) :
      Step s { s with store := (path.run stream expected batch s.store).2 }

theorem Fair.step {s t : System Client E} (h : Fair s) (hs : Step s t) : Fair t := by
  obtain ⟨store, seen, won⟩ := s
  obtain ⟨⟨log, hl, hstore, hwon⟩, hnodup⟩ := h
  obtain rfl : store = ofLog log := hstore
  cases hs with
  | read client stream version hv => exact ⟨⟨log, hl, rfl, hwon⟩, hnodup⟩
  | other path stream expected batch =>
      obtain ⟨committed, hc, hafter⟩ := after_append hl stream expected batch
      refine ⟨⟨log ++ committed, hc, ?_, fun o ho => ?_⟩, hnodup⟩
      · rw [run_eq, hafter]
      · rw [positionsOf_append, List.length_append]
        exact Nat.lt_add_right _ (hwon o ho)
  | append client path stream version batch hseen =>
      rw [System.attempt, run_eq, append_ofLog hl]
      cases hp : prepareAppend (ofLog log) stream (expectation version) batch with
      | error e => exact ⟨⟨log, hl, rfl, hwon⟩, hnodup⟩
      | ok committed => exact Fair.won hl hwon hnodup hp

theorem Fair.run {s t : System Client E} (h : Fair s) (hs : ReflTransGen Step s t) : Fair t := by
  induction hs with
  | refl => exact h
  | tail _ hstep ih => exact ih.step hstep

end WeavatrixMemory.Store.Clients
