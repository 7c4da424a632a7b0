import WeavatrixMemory.Domain

namespace WeavatrixMemory.Common

open Identity Domain

/-! The fixtures of `tests/common`, the concrete values on which results are evaluated. -/

def ts (value : Int64) : Timestamp := ⟨value⟩

def task : EntityId := ⟨⟨"task:1", by decide⟩, by decide⟩

def file : EntityId := ⟨⟨"file:1", by decide⟩, by decide⟩

def factOne : FactId := ⟨⟨"fact:1", by decide⟩, by decide⟩

def factTwo : FactId := ⟨⟨"fact:2", by decide⟩, by decide⟩

def agent : AgentId := ⟨⟨"codex-test", by decide⟩, by decide⟩

def session : SessionId := ⟨⟨"session-test", by decide⟩, by decide⟩

def testKind : Text := ⟨"test", by decide⟩

def evidence : Vec Evidence :=
  ⟨[⟨testKind, ⟨"integration-suite", by decide⟩, none, none⟩], by decide⟩

def taskKind : Text := ⟨"task", by decide⟩

def taskLabel : Text := ⟨"Task", by decide⟩

def node (id : EntityId) : MemoryNode where
  id := id
  kind := taskKind
  label := taskLabel
  repository := none
  branch := none
  attributes := ∅
  attributesFit := emptyAttributes_fit

def fact (id : FactId) (validFrom recordedAt : Timestamp) (supersedes : Option FactId) : MemoryFact where
  id := id
  source := task
  relation := ⟨"affects", by decide⟩
  target := file
  validFrom := validFrom
  validUntil := none
  observedAt := recordedAt
  recordedAt := recordedAt
  agentId := agent
  sessionId := session
  confidence := .certain
  evidence := evidence
  supersedes := supersedes

def stream : StreamId := ⟨⟨"stream:simple", by decide⟩, by decide⟩

theorem nodeUpserted_fits : "node_upserted".utf8ByteSize < 2 ^ 63 := by decide

theorem factRecorded_fits : "fact_recorded".utf8ByteSize < 2 ^ 63 := by decide

def eventType : MemoryEvent → Text
  | .nodeUpserted _ => ⟨"node_upserted", nodeUpserted_fits⟩
  | .factRecorded _ => ⟨"fact_recorded", factRecorded_fits⟩
  | .factRetracted .. => ⟨"fact_retracted", by decide⟩

def event (id : EventId) (recordedAt : Timestamp) (payload : MemoryEvent) : NewEvent MemoryEvent where
  id := id
  eventType := eventType payload
  occurredAt := recordedAt
  recordedAt := recordedAt
  agentId := agent
  sessionId := session
  correlationId := none
  causationId := none
  payload := payload

def stored (position : UInt64) (event : NewEvent MemoryEvent) : StoredEvent MemoryEvent where
  metadata :=
    { id := event.id
      streamId := stream
      streamVersion := position
      globalPosition := position
      eventType := event.eventType
      occurredAt := event.occurredAt
      recordedAt := event.recordedAt
      agentId := event.agentId
      sessionId := event.sessionId
      correlationId := event.correlationId
      causationId := event.causationId }
  payload := event.payload

instance fiveNeZero : NeZero 5 := ⟨by decide⟩

def eventId (index : Fin 5) : EventId :=
  match index with
  | 0 => ⟨⟨"event:0", by decide⟩, by decide⟩
  | 1 => ⟨⟨"event:1", by decide⟩, by decide⟩
  | 2 => ⟨⟨"event:2", by decide⟩, by decide⟩
  | 3 => ⟨⟨"event:3", by decide⟩, by decide⟩
  | 4 => ⟨⟨"event:4", by decide⟩, by decide⟩

/-- Two nodes, a fact between them that holds from 10 on and is recorded at 20, and its retraction
from 30 on, recorded at 50. -/
def retractedOnce : List (StoredEvent MemoryEvent) :=
  [stored 0 (event (eventId 0) (ts 1) (.nodeUpserted (node task))),
    stored 1 (event (eventId 1) (ts 1) (.nodeUpserted (node file))),
    stored 2 (event (eventId 2) (ts 20) (.factRecorded (fact factOne (ts 10) (ts 20) none))),
    stored 3 (event (eventId 3) (ts 50) (.factRetracted factOne (ts 30) evidence))]

def retractedAgain : StoredEvent MemoryEvent :=
  stored 4 (event (eventId 4) (ts 60) (.factRetracted factOne (ts 30) evidence))

end WeavatrixMemory.Common
