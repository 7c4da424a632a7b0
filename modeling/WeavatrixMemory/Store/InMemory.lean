import Mathlib.Logic.Function.Basic
import WeavatrixMemory.Domain

namespace WeavatrixMemory.Store.InMemory

open Error Identity Domain

inductive ExpectedVersion
  | any
  | noStream
  | exact (version : UInt64)
deriving DecidableEq

structure AppendReceipt where
  eventCount : Nat
  firstStreamVersion : Option UInt64
  lastStreamVersion : Option UInt64
  firstGlobalPosition : Option UInt64
  lastGlobalPosition : Option UInt64
deriving DecidableEq

variable {E : Type}

def AppendReceipt.fromEvents (events : List (StoredEvent E)) : AppendReceipt where
  eventCount := events.length
  firstStreamVersion := events.head?.map (·.metadata.streamVersion)
  lastStreamVersion := events.getLast?.map (·.metadata.streamVersion)
  firstGlobalPosition := events.head?.map (·.metadata.globalPosition)
  lastGlobalPosition := events.getLast?.map (·.metadata.globalPosition)

/-- The store. The hash tables `streams` and `event_ids` are never iterated, so they are functions. -/
structure InMemoryStore (E : Type) where
  events : List (StoredEvent E)
  streams : StreamId → Option (List Nat)
  eventIds : EventId → Bool

def InMemoryStore.default : InMemoryStore E := ⟨[], fun _ => none, fun _ => false⟩

def streamVersion (s : InMemoryStore E) (stream : StreamId) : Result (Option UInt64) :=
  match (s.streams stream).bind List.getLast? with
  | none => .ok none
  | some index => do
      let event ← getAt s.events index
      .ok (some event.metadata.streamVersion)

def loadStream (s : InMemoryStore E) (stream : StreamId) (after : Option UInt64) :
    Result (List (StoredEvent E)) := do
  let events ← ((s.streams stream).getD []).mapM (getAt s.events)
  .ok (events.filter fun event => after.all (· < event.metadata.streamVersion))

def loadAll (s : InMemoryStore E) (after : Option UInt64) (limit : Nat) : List (StoredEvent E) :=
  (s.events.filter fun event => after.all (· < event.metadata.globalPosition)).take limit

def ExpectedVersion.admits (actual : Option UInt64) : ExpectedVersion → Bool
  | .any => true
  | .noStream => actual.isNone
  | .exact version => actual == some version

def ExpectedVersion.version : ExpectedVersion → Option UInt64
  | .any => none
  | .noStream => none
  | .exact version => some version

def validateExpected (stream : StreamId) (expected : ExpectedVersion) (actual : Option UInt64) : Result Unit :=
  throwIf (expected.admits actual = false) (.versionConflict stream.toString expected.version actual)

/-- The loop of `unique_ids`, with the identifiers of the batch so far. -/
def validateUniqueIds (known : EventId → Bool) : List EventId → List (NewEvent E) → Result Unit
  | _, [] => .ok ()
  | batch, event :: rest => do
      throwIf (known event.id ∨ event.id ∈ batch) (.duplicateEvent event.id.toString)
      validateUniqueIds known (event.id :: batch) rest

def stampEvents (stream : StreamId) (startVersion startPosition : UInt64) :
    Nat → List (NewEvent E) → Result (List (StoredEvent E))
  | _, [] => .ok []
  | offset, event :: rest => do
      let shift ← u64TryFrom offset
      let streamVersion ← checkedAdd startVersion shift
      let globalPosition ← checkedAdd startPosition shift
      let committed ← stampEvents stream startVersion startPosition (offset + 1) rest
      .ok ({ metadata :=
               { id := event.id
                 streamId := stream
                 streamVersion := streamVersion
                 globalPosition := globalPosition
                 eventType := event.eventType
                 occurredAt := event.occurredAt
                 recordedAt := event.recordedAt
                 agentId := event.agentId
                 sessionId := event.sessionId
                 correlationId := event.correlationId
                 causationId := event.causationId }
             payload := event.payload } :: committed)

def prepareAppend (s : InMemoryStore E) (stream : StreamId) (expected : ExpectedVersion)
    (events : List (NewEvent E)) : Result (List (StoredEvent E)) := do
  let actual ← streamVersion s stream
  validateExpected stream expected actual
  validateUniqueIds s.eventIds [] events
  let startVersion ← following actual
  let startPosition ← u64TryFrom s.events.length
  stampEvents stream startVersion startPosition 0 events

/-- The loop of `prepare_append_owned`, which takes the events apart. -/
def stampOwnedEvents (stream : StreamId) (startVersion startPosition : UInt64) :
    Nat → List (NewEvent E) → Result (List (StoredEvent E))
  | _, [] => .ok []
  | offset, ⟨id, eventType, occurredAt, recordedAt, agentId, sessionId, correlationId, causationId, payload⟩ ::
      rest => do
      let shift ← u64TryFrom offset
      let stored : StoredEvent E :=
        { metadata :=
            { id := id
              streamId := stream
              streamVersion := ← checkedAdd startVersion shift
              globalPosition := ← checkedAdd startPosition shift
              eventType := eventType
              occurredAt := occurredAt
              recordedAt := recordedAt
              agentId := agentId
              sessionId := sessionId
              correlationId := correlationId
              causationId := causationId }
          payload := payload }
      let committed ← stampOwnedEvents stream startVersion startPosition (offset + 1) rest
      .ok (stored :: committed)

def prepareAppendOwned (s : InMemoryStore E) (stream : StreamId) (expected : ExpectedVersion)
    (events : List (NewEvent E)) : Result (List (StoredEvent E)) := do
  let actual ← streamVersion s stream
  validateExpected stream expected actual
  validateUniqueIds s.eventIds [] events
  let startVersion ← following actual
  let startPosition ← u64TryFrom s.events.length
  stampOwnedEvents stream startVersion startPosition 0 events

/-- The loop of both commits, over the positions of the stream of the first event. -/
def pushEvents : List (StoredEvent E) → List Nat → InMemoryStore E → List Nat × InMemoryStore E
  | [], positions, s => (positions, s)
  | event :: rest, positions, s =>
      pushEvents rest (positions ++ [s.events.length])
        { s with
          eventIds := Function.update s.eventIds event.metadata.id true
          events := s.events ++ [event] }

def commitPrepared (committed : List (StoredEvent E)) (s : InMemoryStore E) : InMemoryStore E :=
  match committed with
  | [] => s
  | first :: _ =>
      let (positions, s) := pushEvents committed ((s.streams first.metadata.streamId).getD []) s
      { s with streams := Function.update s.streams first.metadata.streamId (some positions) }

def commitPreparedOwned (committed : List (StoredEvent E)) (s : InMemoryStore E) : InMemoryStore E :=
  match committed with
  | [] => s
  | first :: _ =>
      let (positions, s) := pushEvents committed ((s.streams first.metadata.streamId).getD []) s
      { s with streams := Function.update s.streams first.metadata.streamId (some positions) }

def restoreEvent (s : InMemoryStore E) (event : StoredEvent E) : Result (InMemoryStore E) := do
  let expectedPosition ← u64TryFrom s.events.length
  throwIf (event.metadata.globalPosition ≠ expectedPosition)
    (.invalidReplay s!"global position {event.metadata.globalPosition}, expected {expectedPosition}")
  let actual ← streamVersion s event.metadata.streamId
  let expectedVersion ← following actual
  throwIf (event.metadata.streamVersion ≠ expectedVersion)
    (.invalidReplay (s!"stream {event.metadata.streamId.toString} version " ++
      s!"{event.metadata.streamVersion}, expected {expectedVersion}"))
  throwIf (s.eventIds event.metadata.id) (.duplicateEvent event.metadata.id.toString)
  .ok
    { events := s.events ++ [event]
      streams := Function.update s.streams event.metadata.streamId
        (some ((s.streams event.metadata.streamId).getD [] ++ [s.events.length]))
      eventIds := Function.update s.eventIds event.metadata.id true }

def restore (events : List (StoredEvent E)) : Result (InMemoryStore E) :=
  events.foldlM restoreEvent .default

def append (stream : StreamId) (expected : ExpectedVersion) (events : List (NewEvent E)) :
    Update (InMemoryStore E) (List (StoredEvent E)) := do
  let committed ← prepareAppend (← get) stream expected events
  modify (commitPrepared committed)
  pure committed

def appendOwned (stream : StreamId) (expected : ExpectedVersion) (events : List (NewEvent E)) :
    Update (InMemoryStore E) (List (StoredEvent E)) := do
  let committed ← prepareAppendOwned (← get) stream expected events
  modify (commitPrepared committed)
  pure committed

def appendOwnedReceipt (stream : StreamId) (expected : ExpectedVersion) (events : List (NewEvent E)) :
    Update (InMemoryStore E) AppendReceipt := do
  let committed ← prepareAppendOwned (← get) stream expected events
  let receipt := AppendReceipt.fromEvents committed
  modify (commitPreparedOwned committed)
  pure receipt

end WeavatrixMemory.Store.InMemory
