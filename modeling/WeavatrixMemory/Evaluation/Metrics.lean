import WeavatrixMemory.Evaluation.Scoring
import WeavatrixMemory.Library.Means
import WeavatrixMemory.Library.Ranking
import Mathlib.Data.Rat.Cast.Order
import Mathlib.Tactic.Ring

namespace WeavatrixMemory.Evaluation.Metrics

open Error Identity Groups Means Ranking Scoring

def rankedFor (predictions : List RankedPrediction) (case : EvaluationCase) : List Text :=
  ((predictions.find? fun prediction => prediction.caseId = case.id).map fun prediction =>
    firsts (fun id => id) ∅ prediction.rankedIds.items).getD []

def Hit (predictions : List RankedPrediction) (k : Nat) (case : EvaluationCase) : Prop :=
  ∃ id ∈ (rankedFor predictions case).take k, id ∈ case.relevantIds

instance decidableHit (predictions : List RankedPrediction) (k : Nat) (case : EvaluationCase) :
    Decidable (Hit predictions k case) := inferInstanceAs (Decidable (∃ id ∈ _, _))

def found (predictions : List RankedPrediction) (k : Nat) (case : EvaluationCase) : Nat :=
  (case.relevantIds.toList.filter fun id => id ∈ (rankedFor predictions case).take k).length

def rank (predictions : List RankedPrediction) (case : EvaluationCase) : Option Nat :=
  ((rankedFor predictions case).findIdx? fun id => id ∈ case.relevantIds).map (· + 1)

def hitOf (predictions : List RankedPrediction) (k : Nat) (case : EvaluationCase) : ℚ :=
  if Hit predictions k case then 1 else 0

def recallOf (predictions : List RankedPrediction) (k : Nat) (case : EvaluationCase) : ℚ :=
  found predictions k case / case.relevantIds.size

def reciprocalOf (predictions : List RankedPrediction) (case : EvaluationCase) : ℚ :=
  (rank predictions case).elim 0 fun place => 1 / place

structure Averages (predictions : List RankedPrediction) (cutoffs : List Nat) (cases : List EvaluationCase)
    (metrics : RetrievalMetrics) : Prop where
  length : metrics.cases = cases.length
  hitAt : ∀ k, metrics.hitAt[k]? = if k ∈ cutoffs then some (mean (hitOf predictions k) cases) else none
  recallAt : ∀ k, metrics.recallAt[k]? = if k ∈ cutoffs then some (mean (recallOf predictions k) cases) else none
  meanReciprocalRank : metrics.meanReciprocalRank = mean (reciprocalOf predictions) cases

def InUnit (value : ℚ) : Prop := 0 ≤ value ∧ value ≤ 1

/-- The values are fractions, and those for the cutoffs never fall. -/
structure Regular (metrics : RetrievalMetrics) : Prop where
  hitAt : ∀ (k : Nat) (value : ℚ), metrics.hitAt[k]? = some value → InUnit value
  recallAt : ∀ (k : Nat) (value : ℚ), metrics.recallAt[k]? = some value → InUnit value
  meanReciprocalRank : InUnit metrics.meanReciprocalRank
  hitRises : ∀ (k k' : Nat) (value value' : ℚ), k ≤ k' → metrics.hitAt[k]? = some value →
    metrics.hitAt[k']? = some value' → value ≤ value'
  recallRises : ∀ (k k' : Nat) (value value' : ℚ), k ≤ k' → metrics.recallAt[k]? = some value →
    metrics.recallAt[k']? = some value' → value ≤ value'

def weighted (report : EvaluationReport) (value : RetrievalMetrics → ℚ) : ℚ :=
  ((valuesOf report.byCategory).map fun metrics => metrics.cases * value metrics).sum /
    ((valuesOf report.byCategory).map fun metrics => (metrics.cases : ℚ)).sum

structure ProperAverages (predictions : List RankedPrediction) (cutoffs : List Nat) (cases : List EvaluationCase)
    (report : EvaluationReport) : Prop where
  overall : Averages predictions cutoffs cases report.overall
  categories : ∀ category : Text, report.byCategory.contains category = true ↔ ∃ case ∈ cases, case.category = category
  byCategory : ∀ (category : Text) (metrics : RetrievalMetrics), report.byCategory[category]? = some metrics →
    Averages predictions cutoffs (cases.filter fun case => case.category = category) metrics
  regular : ∀ metrics, metrics = report.overall ∨ metrics ∈ valuesOf report.byCategory → Regular metrics
  hitWeighted : ∀ k ∈ cutoffs, report.overall.hitAt[k]? = some (weighted report fun metrics => metrics.hitAt.getD k 0)
  recallWeighted : ∀ k ∈ cutoffs,
    report.overall.recallAt[k]? = some (weighted report fun metrics => metrics.recallAt.getD k 0)
  rankWeighted : report.overall.meanReciprocalRank = weighted report RetrievalMetrics.meanReciprocalRank

/-- No cutoff with a hit is repeated, and what is counted stays below the numbers at which `float` ends. -/
structure Counted (predictions : List RankedPrediction) (cutoffs : List Nat) (cases : List EvaluationCase) : Prop where
  once : ∀ k ∈ cutoffs, (∃ case ∈ cases, Hit predictions k case) → cutoffs.count k = 1
  few : (∃ case ∈ cases, (rank predictions case).isSome) → cases.length < 2 ^ 32
  ranks : ∀ case ∈ cases, ∀ place, rank predictions case = some place → place < 2 ^ 32
  relevant : ∀ case ∈ cases, ∀ k ∈ cutoffs, found predictions k case = 0 ∨
    found predictions k case = case.relevantIds.size ∨ case.relevantIds.size < 2 ^ 32

section Validation

variable {predictions : List RankedPrediction} {cases : List EvaluationCase}

theorem keepUnseen_eq {seen : BTreeSet Text} {keys : Finset Text} (h : ∀ id, id ∈ seen ↔ id ∈ keys) (ids : List Text) :
    keepUnseen seen ids = firsts (fun id => id) keys ids := by
  induction ids generalizing seen keys with
  | nil => rfl
  | cons first rest ih =>
      rw [keepUnseen, firsts, ih h, ih fun other => by rw [mem_insert, Finset.mem_insert, h]]
      by_cases hin : first ∈ keys
      · rw [if_pos hin, if_pos (Std.ExtTreeSet.contains_iff_mem.mpr ((h _).mpr hin))]
      · rw [if_neg hin, if_neg fun hc => hin ((h _).mp (Std.ExtTreeSet.contains_iff_mem.mp hc))]

theorem validatePredictions_lookup {known : BTreeMap Text EvaluationCase} {before after : BTreeMap Text (List Text)}
    (h : validatePredictions known predictions before = .ok after) (caseId : Text) :
    after[caseId]? = before[caseId]?.or ((predictions.find? fun prediction => prediction.caseId = caseId).map
      fun prediction => firsts (fun id => id) ∅ prediction.rankedIds.items) := by
  induction predictions generalizing before with
  | nil =>
      obtain rfl := Except.ok.inj h
      rw [List.find?_nil, Option.map_none, Option.or_none]
  | cons prediction rest ih =>
      obtain ⟨-, h⟩ := unit_bind_eq_ok.mp h
      obtain ⟨hnew, hrest⟩ := unit_bind_eq_ok.mp h
      rw [ih hrest, getElem?_insert]
      by_cases hid : caseId = prediction.caseId
      · subst hid
        have hnone : before[prediction.caseId]? = none := by
          rw [← Option.isSome_eq_false_iff.trans Option.isNone_iff_eq_none,
            ← Std.ExtTreeMap.contains_eq_isSome_getElem?]
          exact Bool.eq_false_iff.mpr (throwIf_eq_ok.mp hnew)
        have hkept : keepUnseen ∅ prediction.rankedIds.items = firsts (fun id => id) ∅ prediction.rankedIds.items :=
          keepUnseen_eq (by simp) _
        have hfirst : ((prediction :: rest).find? fun other => other.caseId = prediction.caseId) = some prediction :=
          List.find?_cons_of_pos (decide_eq_true rfl)
        rw [if_pos rfl, hnone, Option.none_or, Option.some_or, hfirst, Option.map_some, hkept]
      · rw [if_neg hid, List.find?_cons_of_neg]
        exact fun hsame => hid (of_decide_eq_true hsame).symm

theorem validateCases_relevant {before after : BTreeMap Text EvaluationCase}
    (h : validateCases cases before = .ok after) :
    ∀ case ∈ cases, 0 < case.relevantIds.size := by
  induction cases generalizing before with
  | nil => exact fun _ h => absurd h List.not_mem_nil
  | cons case rest ih =>
      obtain ⟨hcase, hrest⟩ := unit_bind_eq_ok.mp h
      refine List.forall_mem_cons.mpr ⟨?_, ih hrest⟩
      have hnot := throwIf_eq_ok.mp hcase
      simp only [not_or] at hnot
      have hsome := hnot.2.2.1
      rw [Std.ExtTreeSet.isEmpty_eq_size_beq_zero, beq_iff_eq] at hsome
      exact Nat.pos_of_ne_zero hsome

theorem rankedFor_eq {known : BTreeMap Text EvaluationCase} {indexed : BTreeMap Text (List Text)}
    (h : validatePredictions known predictions ∅ = .ok indexed) (case : EvaluationCase) :
    indexed[case.id]?.getD [] = rankedFor predictions case := by
  rw [validatePredictions_lookup h, Std.ExtTreeMap.getElem?_empty, Option.none_or, rankedFor]

end Validation

section Sums

variable {log2 : ℚ → ℚ} {indexed : BTreeMap Text (List Text)} {cutoffs : List Nat} {cases : List EvaluationCase}
  {totals : Totals}

theorem getElem?_foldl_modify {amount : Nat → ℚ} {field : Totals → BTreeMap Nat ℚ} {add : Totals → Nat → Totals}
    (hadd : ∀ totals k, field (add totals k) = (field totals).modify k (· + amount k)) (k : Nat) :
    (field (cutoffs.foldl add totals))[k]? = (field totals)[k]?.map (· + cutoffs.count k * amount k) := by
  induction cutoffs generalizing totals with
  | nil => simp
  | cons cutoff rest ih =>
      rw [List.foldl_cons, ih, hadd, Std.ExtTreeMap.getElem?_modify, List.count_cons]
      by_cases hk : cutoff = k
      · subst hk
        rw [if_pos Std.ReflCmp.compare_self, Option.map_map]
        refine congrArg (Option.map · _) (funext fun value => ?_)
        simp only [Function.comp_apply, beq_self_eq_true, if_true]
        push_cast
        ring
      · rw [if_neg fun heq => hk (Std.LawfulEqOrd.eq_of_compare heq), if_neg (by simpa using hk), Nat.add_zero]

theorem getElem?_zeros (k : Nat) : (zeros cutoffs)[k]? = if k ∈ cutoffs then some 0 else none := by
  have hfold (map : BTreeMap Nat ℚ) : (cutoffs.foldl (fun map cutoff => map.insert cutoff 0) map)[k]? =
      if k ∈ cutoffs then some 0 else map[k]? := by
    induction cutoffs generalizing map with
    | nil => simp
    | cons cutoff rest ih =>
        rw [List.foldl_cons, ih, getElem?_insert]
        by_cases hk : k = cutoff <;> by_cases hrest : k ∈ rest <;> simp [hk, hrest]
  rw [zeros, hfold]
  simp

theorem nodup_rankedFor (predictions : List RankedPrediction) (case : EvaluationCase) :
    (rankedFor predictions case).Nodup := by
  rw [rankedFor]
  cases predictions.find? fun prediction => prediction.caseId = case.id with
  | none => exact List.nodup_nil
  | some prediction =>
      have hkeys := @nodup_keys_firsts _ _ _ (fun id : Text => id) ∅ prediction.rankedIds.items
      rwa [List.map_id'] at hkeys

theorem found_eq (predictions : List RankedPrediction) (k : Nat) (case : EvaluationCase) :
    (((rankedFor predictions case).take k).filter case.relevantIds.contains).length = found predictions k case := by
  have hpredicted :=
    ((nodup_rankedFor predictions case).sublist (List.take_sublist k _)).filter case.relevantIds.contains
  have hrelevant : case.relevantIds.toList.Nodup := by
    refine Std.ExtTreeSet.distinct_toList.imp fun hne heq => ?_
    exact hne (Std.LawfulEqOrd.compare_eq_iff_eq.mpr heq)
  rw [found]
  refine ((List.perm_ext_iff_of_nodup hpredicted (hrelevant.filter _)).mpr fun id => ?_).length_eq
  rw [List.mem_filter, List.mem_filter, Std.ExtTreeSet.mem_toList, decide_eq_true_eq, Std.ExtTreeSet.contains_iff_mem]
  exact and_comm

theorem found_le (predictions : List RankedPrediction) (k : Nat) (case : EvaluationCase) :
    found predictions k case ≤ case.relevantIds.size := by
  rw [← Std.ExtTreeSet.length_toList]
  exact List.length_filter_le _ _

theorem found_mono (predictions : List RankedPrediction) {k k' : Nat} (h : k ≤ k') (case : EvaluationCase) :
    found predictions k case ≤ found predictions k' case := by
  refine List.Sublist.length_le (List.monotone_filter_right _ fun id hid => ?_)
  exact decide_eq_true (List.take_subset_take_left _ h (of_decide_eq_true hid))

theorem hit_iff {predictions : List RankedPrediction} {k : Nat} {case : EvaluationCase} :
    Hit predictions k case ↔ 0 < found predictions k case := by
  rw [← found_eq, List.length_pos_iff_exists_mem]
  simp only [List.mem_filter, Std.ExtTreeSet.contains_iff_mem]
  rfl

/-- What `score` adds up for the recall of a case. -/
def recallCounted (predictions : List RankedPrediction) (k : Nat) (case : EvaluationCase) : ℚ :=
  float (found predictions k case) / float case.relevantIds.size

def reciprocalCounted (predictions : List RankedPrediction) (case : EvaluationCase) : ℚ :=
  (rank predictions case).elim 0 fun place => 1 / float place

variable {predictions : List RankedPrediction} (hindexed : ∀ case : EvaluationCase,
  indexed[case.id]?.getD [] = rankedFor predictions case)

theorem reciprocalRank_foldl (case : EvaluationCase) (ranked : List Text) :
    (cutoffs.foldl (scoreCutoff log2 case ranked) totals).reciprocalRank = totals.reciprocalRank := by
  induction cutoffs generalizing totals with
  | nil => rfl
  | cons cutoff rest ih => exact ih

include hindexed

theorem getElem?_foldl_scoreCase {field : Totals → BTreeMap Nat ℚ} {amount : Nat → EvaluationCase → ℚ}
    (hadd : ∀ case totals k, field (scoreCutoff log2 case (rankedFor predictions case) totals k) =
      (field totals).modify k (· + amount k case))
    (hfield : ∀ totals value, field { totals with reciprocalRank := value } = field totals) (k : Nat) :
    (field (cases.foldl (scoreCase log2 indexed cutoffs) totals))[k]? =
      (field totals)[k]?.map (· + cutoffs.count k * (cases.map (amount k)).sum) := by
  induction cases generalizing totals with
  | nil => simp
  | cons case rest ih =>
      rw [List.foldl_cons, ih, scoreCase, hindexed, getElem?_foldl_modify (hadd case), hfield, Option.map_map]
      refine congrArg (Option.map · _) (funext fun value => ?_)
      rw [Function.comp_apply, List.map_cons, List.sum_cons]
      ring

theorem reciprocalRank_foldl_scoreCase : (cases.foldl (scoreCase log2 indexed cutoffs) totals).reciprocalRank =
    totals.reciprocalRank + (cases.map (reciprocalCounted predictions)).sum := by
  induction cases generalizing totals with
  | nil => simp
  | cons case rest ih =>
      have hcase : (scoreCase log2 indexed cutoffs totals case).reciprocalRank =
          totals.reciprocalRank + reciprocalCounted predictions case := by
        rw [scoreCase, reciprocalRank_foldl, hindexed, reciprocalCounted, rank]
        dsimp only
        have hpredicate : case.relevantIds.contains = fun id => decide (id ∈ case.relevantIds) := by
          funext id
          rw [Bool.eq_iff_iff, Std.ExtTreeSet.contains_iff_mem, decide_eq_true_eq]
        rw [hpredicate]
        cases (rankedFor predictions case).findIdx? fun id => decide (id ∈ case.relevantIds) <;> rfl
      rw [List.foldl_cons, ih, hcase, List.map_cons, List.sum_cons, add_assoc]

theorem score_hitAt (k : Nat) : (score log2 cases indexed cutoffs).hitAt[k]? = if k ∈ cutoffs then
    some (cutoffs.count k * (cases.map (hitOf predictions k)).sum / float (max cases.length 1)) else none := by
  have hadd (case : EvaluationCase) (totals : Totals) (k : Nat) :
      (scoreCutoff log2 case (rankedFor predictions case) totals k).hitAt =
        totals.hitAt.modify k (· + hitOf predictions k case) := by
    rw [scoreCutoff]
    simp only [found_eq, hitOf, hit_iff]
  rw [score, Std.ExtTreeMap.getElem?_map,
    getElem?_foldl_scoreCase hindexed hadd (fun _ _ => rfl) k, getElem?_zeros]
  split <;> simp

theorem score_recallAt (k : Nat) : (score log2 cases indexed cutoffs).recallAt[k]? = if k ∈ cutoffs then
    some (cutoffs.count k * (cases.map (recallCounted predictions k)).sum / float (max cases.length 1)) else none := by
  have hadd (case : EvaluationCase) (totals : Totals) (k : Nat) :
      (scoreCutoff log2 case (rankedFor predictions case) totals k).recallAt =
        totals.recallAt.modify k (· + recallCounted predictions k case) := by
    rw [scoreCutoff]
    simp only [found_eq, recallCounted]
  rw [score, Std.ExtTreeMap.getElem?_map,
    getElem?_foldl_scoreCase hindexed hadd (fun _ _ => rfl) k, getElem?_zeros]
  split <;> simp

theorem score_meanReciprocalRank : (score log2 cases indexed cutoffs).meanReciprocalRank =
    (cases.map (reciprocalCounted predictions)).sum / float (max cases.length 1) := by
  rw [score]
  dsimp only
  rw [reciprocalRank_foldl_scoreCase hindexed, zero_add]

end Sums

end WeavatrixMemory.Evaluation.Metrics
