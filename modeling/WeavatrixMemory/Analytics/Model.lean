import WeavatrixMemory.Projection.Memory

namespace WeavatrixMemory.Analytics.Model

open Identity Domain
open Projection.Memory (ProjectionClock)

structure BeliefRevisionRequest where
  hypothesis : MemoryFact
  clock : ProjectionClock
  maxDepth : Nat

structure Contradiction where
  fact : FactId
  strengthBps : UInt16
  reason : String
deriving DecidableEq

structure CascadeEffect where
  entity : EntityId
  depth : Nat
  revisedConfidenceBps : UInt16
deriving DecidableEq

structure BeliefRevisionReport where
  contradictions : List Contradiction
  cascade : List CascadeEffect
  invalidatedDecisions : List EntityId
deriving DecidableEq

structure ReasoningGapRequest where
  clock : ProjectionClock
  minimumSupports : Nat
  lowConfidenceBps : UInt16
  unstableRevisionCount : Nat
  staleAfterMicros : Int64
  maxResults : Nat

inductive GapKind
  | unjustifiedDecision | singleSourceInference | lowConfidenceFoundation | unstableKnowledge | staleEvidence
deriving DecidableEq

structure ReasoningGap where
  entity : EntityId
  fact : Option FactId
  kind : GapKind
  severityBps : UInt16
  downstreamEntities : Nat
  explanation : String
deriving DecidableEq

structure GapReport where
  gaps : List ReasoningGap
  healthBps : UInt16
  analyzedEntities : Nat
  analyzedFacts : Nat
deriving DecidableEq

inductive ChangeKind
  | initial | refined | corrected | reinforced | weakened
deriving DecidableEq

structure DriftSnapshot where
  fact : FactId
  target : EntityId
  recordedAt : Timestamp
  confidenceBps : UInt16
  change : ChangeKind
deriving DecidableEq

structure DriftReport where
  source : EntityId
  relation : Text
  snapshots : List DriftSnapshot
  correctionCount : Nat
  stabilityBps : UInt16
  likelyToChange : Bool
deriving DecidableEq

inductive ConsolidationKind
  | supersedeDuplicate | reviewOrphan | compactRevisionChain
deriving DecidableEq

structure ConsolidationAction where
  kind : ConsolidationKind
  keep : Option FactId
  affectedFacts : List FactId
  affectedEntities : List EntityId
  rationale : String
deriving DecidableEq

structure ConsolidationPlan where
  actions : List ConsolidationAction
  projectedSavings : Nat
  sourcePosition : Option UInt64
deriving DecidableEq

def usizeSaturatingMul (a b : Nat) : Nat := min (a * b) (2 ^ 64 - 1)

def usizeSaturatingAdd (a b : Nat) : Nat := min (a + b) (2 ^ 64 - 1)

def i64Saturating (n : Int) : Int := max (-2 ^ 63) (min n (2 ^ 63 - 1))

/-- `u16::try_from` and `unwrap_or`. -/
def u16Or (otherwise : UInt16) (n : Nat) : UInt16 := if n < 2 ^ 16 then UInt16.ofNat n else otherwise

end WeavatrixMemory.Analytics.Model
