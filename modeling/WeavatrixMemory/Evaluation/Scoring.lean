import WeavatrixMemory.Error
import WeavatrixMemory.Identity
import WeavatrixMemory.Library.Groups
import Mathlib.Algebra.Order.Field.Rat

namespace WeavatrixMemory.Evaluation.Scoring

open Error Identity Groups

structure EvaluationCase where
  id : Text
  category : Text
  relevantIds : BTreeSet Text

structure RankedPrediction where
  caseId : Text
  rankedIds : Vec Text

/-- The values of `f64` are read as exact rationals. -/
structure RetrievalMetrics where
  cases : Nat
  hitAt : BTreeMap Nat ℚ
  recallAt : BTreeMap Nat ℚ
  ndcgAt : BTreeMap Nat ℚ
  meanReciprocalRank : ℚ

structure EvaluationReport where
  overall : RetrievalMetrics
  byCategory : BTreeMap Text RetrievalMetrics

def invalid (reason : String) : MemoryError := .invalidValue "evaluation" reason

def float (value : Nat) : ℚ := (min value (2 ^ 32 - 1) : Nat)

def validateCutoffs (cutoffs : List Nat) : Result Unit :=
  throwIf (cutoffs = [] ∨ 0 ∈ cutoffs) (invalid "cutoffs must be non-empty and greater than zero")

/-- The loop over the cases, which fills the index. -/
def validateCases : List EvaluationCase → BTreeMap Text EvaluationCase → Result (BTreeMap Text EvaluationCase)
  | [], indexed => .ok indexed
  | case :: rest, indexed => do
      throwIf (case.id.str = "" ∨ case.category.str = "" ∨ case.relevantIds.isEmpty ∨ indexed.contains case.id)
        (invalid "cases need unique non-empty ids, categories, and relevance")
      validateCases rest (indexed.insert case.id case)

/-- `filter` with the set of the identifiers that have been seen. -/
def keepUnseen : BTreeSet Text → List Text → List Text
  | _, [] => []
  | seen, id :: rest => if seen.contains id then keepUnseen seen rest else id :: keepUnseen (seen.insert id) rest

def validatePredictions (cases : BTreeMap Text EvaluationCase) :
    List RankedPrediction → BTreeMap Text (List Text) → Result (BTreeMap Text (List Text))
  | [], indexed => .ok indexed
  | prediction :: rest, indexed => do
      throwIf (!cases.contains prediction.caseId) (invalid "prediction references an unknown case")
      let ranked := keepUnseen ∅ prediction.rankedIds.items
      throwIf (indexed.contains prediction.caseId) (invalid "prediction case ids must be unique")
      validatePredictions cases rest (indexed.insert prediction.caseId ranked)

/-- Over any logarithm. -/
def ndcg (log2 : ℚ → ℚ) (selected : List Text) (relevant : BTreeSet Text) (cutoff : Nat) : ℚ :=
  let dcg := ((selected.zipIdx.filter fun entry => relevant.contains entry.1).map fun entry =>
    1 / log2 (float (entry.2 + 2))).sum
  let ideal := ((List.range (min relevant.size cutoff)).map fun index => 1 / log2 (float (index + 2))).sum
  if ideal = 0 then 0 else dcg / ideal

structure Totals where
  hitAt : BTreeMap Nat ℚ
  recallAt : BTreeMap Nat ℚ
  ndcgAt : BTreeMap Nat ℚ
  reciprocalRank : ℚ

def scoreCutoff (log2 : ℚ → ℚ) (case : EvaluationCase) (ranked : List Text) (totals : Totals) (cutoff : Nat) : Totals :=
  let selected := ranked.take cutoff
  let relevant := (selected.filter case.relevantIds.contains).length
  { totals with
    hitAt := totals.hitAt.modify cutoff (· + if 0 < relevant then 1 else 0)
    recallAt := totals.recallAt.modify cutoff (· + float relevant / float case.relevantIds.size)
    ndcgAt := totals.ndcgAt.modify cutoff (· + ndcg log2 selected case.relevantIds cutoff) }

def scoreCase (log2 : ℚ → ℚ) (predictions : BTreeMap Text (List Text)) (cutoffs : List Nat) (totals : Totals)
    (case : EvaluationCase) : Totals :=
  let ranked := predictions[case.id]?.getD []
  let reciprocal := (ranked.findIdx? case.relevantIds.contains).elim 0 fun index => 1 / float (index + 1)
  cutoffs.foldl (scoreCutoff log2 case ranked) { totals with reciprocalRank := totals.reciprocalRank + reciprocal }

def zeros (cutoffs : List Nat) : BTreeMap Nat ℚ := cutoffs.foldl (fun map cutoff => map.insert cutoff 0) ∅

def score (log2 : ℚ → ℚ) (cases : List EvaluationCase) (predictions : BTreeMap Text (List Text)) (cutoffs : List Nat) :
    RetrievalMetrics :=
  let totals := cases.foldl (scoreCase log2 predictions cutoffs) ⟨zeros cutoffs, zeros cutoffs, zeros cutoffs, 0⟩
  let denominator := float (max cases.length 1)
  { cases := cases.length
    hitAt := totals.hitAt.map fun _ value => value / denominator
    recallAt := totals.recallAt.map fun _ value => value / denominator
    ndcgAt := totals.ndcgAt.map fun _ value => value / denominator
    meanReciprocalRank := totals.reciprocalRank / denominator }

def evaluateRetrieval (log2 : ℚ → ℚ) (cases : List EvaluationCase) (predictions : List RankedPrediction)
    (cutoffs : List Nat) : Result EvaluationReport := do
  validateCutoffs cutoffs
  let casesById ← validateCases cases ∅
  let predictions ← validatePredictions casesById predictions ∅
  .ok
    { overall := score log2 cases predictions cutoffs
      byCategory := (groups EvaluationCase.category cases).map fun _ cases => score log2 cases predictions cutoffs }

end WeavatrixMemory.Evaluation.Scoring
