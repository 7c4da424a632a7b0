import WeavatrixMemory.Projection.Replay
import WeavatrixMemory.Snapshot.Io

namespace WeavatrixMemory.Snapshot.Compact

open Error Identity Domain Format Io Projection.State Projection.Replay

variable {α β κ : Type}

/-- Collecting into a `Vec`, which panics beyond its greatest size. -/
def collect (xs : List α) : Result (Vec α) :=
  if h : xs.length < 2 ^ 63 then .ok ⟨xs, h⟩ else .error .panicked

/-- `writer.usize(xs.len())?` and the loop over `xs`. -/
def writeCounted (write : α → Write) (xs : List α) : Write := do
  writeUsize xs.length
  writeEach write xs

def readCounted (read : Read α) : Read (List α) := do
  let count ← readCount
  readTimes read count

def writeTimestamp (value : Timestamp) : Write := writeSigned value.micros

def readTimestamp : Read Timestamp := do
  let micros ← readSigned
  pure ⟨micros⟩

def writeId {kind : IdKind} (id : TextId kind) : Write := writeString id.text

def readId (kind : IdKind) : Read (TextId kind) := do
  let value ← readString
  TextId.new value

/-- The loops that read the entries of a map, each with the message for a repeated key. -/
def readEntries [Ord κ] [Std.TransOrd κ] (duplicate : String) (read : Read (κ × β)) :
    Nat → BTreeMap κ β → Read (BTreeMap κ β)
  | 0, entries => pure entries
  | rounds + 1, entries => do
      let (key, value) ← read
      throwIf (entries.contains key) (codec duplicate)
      readEntries duplicate read rounds (entries.insert key value)

def readMap [Ord κ] [Std.TransOrd κ] (duplicate : String) (read : Read (κ × β)) : Read (BTreeMap κ β) := do
  let count ← readCount
  readEntries duplicate read count ∅

def writeAttribute (entry : Text × Text) : Write := do
  writeString entry.1
  writeString entry.2

def readAttribute : Read (Text × Text) := do
  let key ← readString
  let value ← readString
  pure (key, value)

def writeNode (node : MemoryNode) : Write := do
  writeId node.id
  writeString node.kind
  writeString node.label
  writeOptionalString node.repository
  writeOptionalString node.branch
  writeCounted writeAttribute node.attributes.toList

def readNode : Read MemoryNode := do
  let id ← readId .entity
  let kind ← readString
  let label ← readString
  let repository ← readOptionalString
  let branch ← readOptionalString
  let attributes ← readMap "duplicate node attribute" readAttribute
  if h : attributes.size < 2 ^ 63 then
    pure { id, kind, label, repository, branch, attributes, attributesFit := h }
  else throw .panicked

def writeEvidence (evidence : Evidence) : Write := do
  writeString evidence.kind
  writeString evidence.source
  writeOptionalString evidence.locator
  writeOptionalString evidence.digest

def readEvidence : Read Evidence := do
  let kind ← readString
  let source ← readString
  let locator ← readOptionalString
  let digest ← readOptionalString
  pure { kind, source, locator, digest }

def writeConfidence (confidence : Confidence) : Write := writeVarint confidence.basisPoints.toUInt64

def readConfidence : Read Confidence := do
  let value ← readVarint
  throwIf (2 ^ 16 ≤ value.toNat) (codec "confidence exceeds u16")
  Confidence.fromBasisPoints value.toUInt16

def readEvidences : Read (Vec Evidence) := do
  let evidence ← readCounted readEvidence
  collect evidence

def writeFact (fact : MemoryFact) : Write := do
  writeId fact.id
  writeId fact.source
  writeString fact.relation
  writeId fact.target
  writeTimestamp fact.validFrom
  writeOptionalSigned (fact.validUntil.map (·.micros))
  writeTimestamp fact.observedAt
  writeTimestamp fact.recordedAt
  writeId fact.agentId
  writeId fact.sessionId
  writeConfidence fact.confidence
  writeCounted writeEvidence fact.evidence.items
  writeOptional writeId fact.supersedes

def readFact : Read MemoryFact := do
  let id ← readId .fact
  let source ← readId .entity
  let relation ← readString
  let target ← readId .entity
  let validFrom ← readTimestamp
  let validUntil ← readOptionalSigned
  let observedAt ← readTimestamp
  let recordedAt ← readTimestamp
  let agentId ← readId .agent
  let sessionId ← readId .session
  let confidence ← readConfidence
  let evidence ← readEvidences
  let supersedes ← readOptional (readId .fact)
  pure { id, source, relation, target, validFrom, validUntil := validUntil.map Timestamp.mk, observedAt,
         recordedAt, agentId, sessionId, confidence, evidence, supersedes }

def writeStreamVersion (entry : StreamId × UInt64) : Write := do
  writeId entry.1
  writeVarint entry.2

def readStreamVersion : Read (StreamId × UInt64) := do
  let stream ← readId .stream
  let version ← readVarint
  pure (stream, version)

def writeCursor (cursor : ReplayCursor) : Write := do
  writeOptionalU64 cursor.globalPosition
  writeCounted writeStreamVersion cursor.streamVersions.toList

def readCursor : Read ReplayCursor := do
  let globalPosition ← readOptionalU64
  let streamVersions ← readMap "duplicate stream in replay cursor" readStreamVersion
  pure { globalPosition, streamVersions }

def writeRevision (revision : NodeRevision) : Write := do
  writeNode revision.node
  writeTimestamp revision.recordedAt
  writeVarint revision.position

def readRevision : Read NodeRevision := do
  let node ← readNode
  let recordedAt ← readTimestamp
  let position ← readVarint
  pure { node, recordedAt, position }

def writeHistory (history : NodeHistory) : Write := do
  writeUsize (history.later.length + 1)
  writeRevision history.first
  writeEach writeRevision history.later

def readHistory : Read NodeHistory := do
  let count ← readCount
  throwIf (count = 0) (codec "node revision history must not be empty")
  let first ← readRevision
  let later ← readTimes readRevision (count - 1)
  pure { first, later }

def writeSupersession (entry : FactId × Supersession) : Write := do
  writeId entry.1
  writeId entry.2.replacement
  writeTimestamp entry.2.validFrom
  writeTimestamp entry.2.recordedAt

def readSupersession : Read (FactId × Supersession) := do
  let prior ← readId .fact
  let replacement ← readId .fact
  let validFrom ← readTimestamp
  let recordedAt ← readTimestamp
  pure (prior, { replacement, validFrom, recordedAt })

def readSupersessions : Read (BTreeMap FactId Supersession) :=
  readMap "duplicate supersession" readSupersession

def writeRetraction (entry : FactId × Retraction) : Write := do
  writeId entry.1
  writeTimestamp entry.2.validUntil
  writeTimestamp entry.2.recordedAt

def readRetraction : Read (FactId × Retraction) := do
  let fact ← readId .fact
  let validUntil ← readTimestamp
  let recordedAt ← readTimestamp
  pure (fact, { validUntil, recordedAt })

def readRetractions : Read (BTreeMap FactId Retraction) :=
  readMap "duplicate retraction" readRetraction

def writeProjection (p : MemoryProjection) : Write := do
  writeCounted writeHistory p.nodes
  writeCounted writeFact p.facts
  writeCounted writeSupersession p.supersessions.toList
  writeCounted writeRetraction p.retractions.toList
  writeOptionalU64 p.lastGlobalPosition

/-- The part of `read_projection` before the indexes are rebuilt. -/
def readProjectionData : Read ProjectionData := do
  let nodes ← readCounted readHistory
  let facts ← readCounted readFact
  let supersessions ← readSupersessions
  let retractions ← readRetractions
  let lastGlobalPosition ← readOptionalU64
  pure { nodes, facts, supersessions, retractions, lastGlobalPosition }

def readProjection (seeds : Seeds) : Read MemoryProjection := do
  let data ← readProjectionData
  data.deserialize seeds

/-- The eight bytes `WMEMCB01`. -/
def header : List UInt8 := [0x57, 0x4d, 0x45, 0x4d, 0x43, 0x42, 0x30, 0x31]

def encode (value : ProjectionSnapshot MemoryProjection) : Result (List UInt8) :=
  match (do writeCursor value.cursor; writeProjection value.projection : Write) header with
  | .ok _ bytes => .ok bytes
  | .error e _ => .error e

def newReader (bytes : List UInt8) : Result Reader := do
  throwIf (!header.isPrefixOf bytes) (codec "unsupported compact snapshot header")
  .ok ⟨bytes, header.length⟩

def finishReader : Read Unit := do
  let reader ← get
  throwIf (reader.position ≠ reader.items.length) (codec "trailing bytes after compact snapshot")

def decodeWith (seeds : Seeds) : Read (ProjectionSnapshot MemoryProjection) := do
  let cursor ← readCursor
  let projection ← readProjection seeds
  finishReader
  throwIf (cursor.globalPosition ≠ projection.lastGlobalPosition)
    (codec "cursor and projection positions disagree")
  pure { cursor, projection }

def decode (seeds : Seeds) (bytes : Vec UInt8) : Result (ProjectionSnapshot MemoryProjection) := do
  let reader ← newReader bytes.items
  match decodeWith seeds reader with
  | .ok snapshot _ => .ok snapshot
  | .error e _ => .error e

end WeavatrixMemory.Snapshot.Compact
