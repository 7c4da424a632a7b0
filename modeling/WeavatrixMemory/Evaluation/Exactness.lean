import WeavatrixMemory.Evaluation.Metrics

namespace WeavatrixMemory.Evaluation.Exactness

open Error Identity Groups Means Scoring Metrics

variable {log2 : ℚ → ℚ} {cases : List EvaluationCase} {predictions : List RankedPrediction} {cutoffs : List Nat}
  {indexed : BTreeMap Text (List Text)} {case : EvaluationCase} {k : Nat}

theorem float_le (n : Nat) : float n ≤ n := by
  rw [float, Nat.cast_le]
  exact Nat.min_le_left _ _

theorem float_eq_iff {n : Nat} : float n = n ↔ n < 2 ^ 32 := by
  rw [float, Nat.cast_inj]
  omega

theorem float_pos {n : Nat} (h : 0 < n) : 0 < float n := by
  rw [float, Nat.cast_pos]
  omega

theorem recallOf_nonneg : 0 ≤ recallOf predictions k case := div_nonneg (Nat.cast_nonneg _) (Nat.cast_nonneg _)

theorem recallOf_le_one : recallOf predictions k case ≤ 1 :=
  div_le_one_of_le₀ (Nat.cast_le.mpr (found_le predictions k case)) (Nat.cast_nonneg _)

theorem div_le_float_div {a b : Nat} (h : a ≤ b) : (a : ℚ) / b ≤ float a / float b := by
  cases Nat.eq_zero_or_pos b with
  | inl hb => simp [hb, float]
  | inr hb =>
      rw [div_le_div_iff₀ (Nat.cast_pos.mpr hb) (float_pos hb), float, float, ← Nat.cast_mul, ← Nat.cast_mul,
        Nat.cast_le]
      by_cases ha : a ≤ 2 ^ 32 - 1
      · rw [Nat.min_eq_left ha]
        exact Nat.mul_le_mul_left a (Nat.min_le_left _ _)
      · rw [Nat.min_eq_right (not_le.mp ha).le, Nat.min_eq_right ((not_le.mp ha).le.trans h), Nat.mul_comm]
        exact Nat.mul_le_mul_left _ h

theorem div_eq_float_div_iff {a b : Nat} (h : a ≤ b) (hb : 0 < b) :
    (a : ℚ) / b = float a / float b ↔ a = 0 ∨ a = b ∨ b < 2 ^ 32 := by
  rw [div_eq_div_iff (Nat.cast_pos.mpr hb).ne' (float_pos hb).ne', float, float, ← Nat.cast_mul, ← Nat.cast_mul,
    Nat.cast_inj]
  by_cases hlt : b < 2 ^ 32
  · rw [Nat.min_eq_left (by omega), Nat.min_eq_left (by omega)]
    exact iff_of_true rfl (.inr (.inr hlt))
  · rw [Nat.min_eq_right (show 2 ^ 32 - 1 ≤ b by omega)]
    by_cases ha : a ≤ 2 ^ 32 - 1
    · rw [Nat.min_eq_left ha, mul_eq_mul_left_iff]
      omega
    · rw [Nat.min_eq_right (not_le.mp ha).le, Nat.mul_comm, mul_eq_mul_left_iff]
      omega

theorem recallOf_le (k : Nat) (case : EvaluationCase) :
    recallOf predictions k case ≤ recallCounted predictions k case :=
  div_le_float_div (found_le predictions k case)

theorem recallOf_eq_iff (hrelevant : 0 < case.relevantIds.size) :
    recallOf predictions k case = recallCounted predictions k case ↔ found predictions k case = 0 ∨
      found predictions k case = case.relevantIds.size ∨ case.relevantIds.size < 2 ^ 32 :=
  div_eq_float_div_iff (found_le predictions k case) hrelevant

theorem recallCounted_eq_zero (hrelevant : 0 < case.relevantIds.size) :
    recallCounted predictions k case = 0 ↔ found predictions k case = 0 := by
  rw [recallCounted, div_eq_zero_iff, or_iff_left (float_pos hrelevant).ne']
  constructor
  · intro h
    by_contra hne
    exact (float_pos (Nat.pos_of_ne_zero hne)).ne' h
  · intro h
    rw [h]
    rfl

theorem hitOf_eq_zero : hitOf predictions k case = 0 ↔ ¬ Hit predictions k case := by
  rw [hitOf]
  split
  next h => simp [h]
  next h => simp [h]

theorem rank_pos {place : Nat} (h : rank predictions case = some place) : 0 < place := by
  obtain ⟨index, -, rfl⟩ := Option.map_eq_some_iff.mp h
  exact Nat.succ_pos index

theorem rank_isSome (h : Hit predictions k case) : (rank predictions case).isSome = true := by
  obtain ⟨id, hid, hrelevant⟩ := h
  rw [rank, Option.isSome_map, List.findIdx?_isSome, List.any_eq_true]
  exact ⟨id, List.mem_of_mem_take hid, decide_eq_true hrelevant⟩

theorem reciprocalOf_le (case : EvaluationCase) :
    0 ≤ reciprocalOf predictions case ∧ reciprocalOf predictions case ≤ reciprocalCounted predictions case := by
  rw [reciprocalOf, reciprocalCounted]
  cases hrank : rank predictions case with
  | none => exact ⟨le_rfl, le_rfl⟩
  | some place =>
      exact ⟨one_div_nonneg.mpr (Nat.cast_nonneg _),
        one_div_le_one_div_of_le (float_pos (rank_pos hrank)) (float_le place)⟩

theorem reciprocalOf_le_one (case : EvaluationCase) : reciprocalOf predictions case ≤ 1 := by
  rw [reciprocalOf]
  cases hrank : rank predictions case with
  | none => exact zero_le_one
  | some place => exact div_le_one_of_le₀ (Nat.one_le_cast.mpr (rank_pos hrank)) (Nat.cast_nonneg _)

theorem reciprocalOf_eq_iff : reciprocalOf predictions case = reciprocalCounted predictions case ↔
    ∀ place, rank predictions case = some place → place < 2 ^ 32 := by
  rw [reciprocalOf, reciprocalCounted]
  cases hrank : rank predictions case with
  | none => simp
  | some place =>
      simp only [Option.elim_some, one_div, inv_inj, Option.some.injEq, forall_eq']
      rw [eq_comm, float_eq_iff]

theorem reciprocalCounted_eq_zero :
    reciprocalCounted predictions case = 0 ↔ (rank predictions case).isSome = false := by
  rw [reciprocalCounted]
  cases hrank : rank predictions case with
  | none => simp
  | some place =>
      have hpos := float_pos (rank_pos hrank)
      simp [hpos.ne']

theorem divisor_spec (h : cases ≠ []) : 0 < float (max cases.length 1) ∧ float (max cases.length 1) ≤ cases.length := by
  rw [Nat.max_eq_left (List.length_pos_iff.mpr h)]
  exact ⟨float_pos (List.length_pos_iff.mpr h), float_le _⟩

theorem divisor_eq_iff (h : cases ≠ []) : float (max cases.length 1) = cases.length ↔ cases.length < 2 ^ 32 := by
  rw [Nat.max_eq_left (List.length_pos_iff.mpr h), float_eq_iff]

theorem one_le_count (h : k ∈ cutoffs) : (1 : ℚ) ≤ cutoffs.count k := Nat.one_le_cast.mpr (List.count_pos_iff.mpr h)

section Score

variable (hindexed : ∀ case : EvaluationCase, indexed[case.id]?.getD [] = rankedFor predictions case)
  (hrelevant : ∀ case ∈ cases, 0 < case.relevantIds.size)

include hindexed

theorem hitAt_eq_iff (hk : k ∈ cutoffs) :
    (score log2 cases indexed cutoffs).hitAt[k]? = some (mean (hitOf predictions k) cases) ↔
      (∀ case ∈ cases, ¬ Hit predictions k case) ∨ cutoffs.count k = 1 ∧ float (max cases.length 1) = cases.length := by
  have hbounds (case : EvaluationCase) (_ : case ∈ cases) :
      0 ≤ hitOf predictions k case ∧ hitOf predictions k case ≤ hitOf predictions k case := by
    refine ⟨?_, le_rfl⟩
    rw [hitOf]
    split
    next => exact zero_le_one
    next => exact le_rfl
  rw [score_hitAt hindexed, if_pos hk, Option.some.injEq, scaled_eq_mean_iff hbounds (one_le_count hk) divisor_spec]
  simp only [hitOf_eq_zero, Nat.cast_eq_one, implies_true, and_true]

include hrelevant in
theorem recallAt_eq_iff (hk : k ∈ cutoffs) :
    (score log2 cases indexed cutoffs).recallAt[k]? = some (mean (recallOf predictions k) cases) ↔
      (∀ case ∈ cases, found predictions k case = 0) ∨ cutoffs.count k = 1 ∧
        float (max cases.length 1) = cases.length ∧ ∀ case ∈ cases, found predictions k case = 0 ∨
          found predictions k case = case.relevantIds.size ∨ case.relevantIds.size < 2 ^ 32 := by
  have hbounds (case : EvaluationCase) (_ : case ∈ cases) :
      0 ≤ recallOf predictions k case ∧ recallOf predictions k case ≤ recallCounted predictions k case :=
    ⟨recallOf_nonneg, recallOf_le k case⟩
  rw [score_recallAt hindexed, if_pos hk, Option.some.injEq, scaled_eq_mean_iff hbounds (one_le_count hk) divisor_spec,
    Nat.cast_eq_one]
  refine or_congr (forall₂_congr fun case hcase => recallCounted_eq_zero (hrelevant case hcase)) ?_
  exact and_congr_right' (and_congr_right' (forall₂_congr fun case hcase => recallOf_eq_iff (hrelevant case hcase)))

theorem meanReciprocalRank_eq_iff :
    (score log2 cases indexed cutoffs).meanReciprocalRank = mean (reciprocalOf predictions) cases ↔
      (∀ case ∈ cases, (rank predictions case).isSome = false) ∨ float (max cases.length 1) = cases.length ∧
        ∀ case ∈ cases, ∀ place, rank predictions case = some place → place < 2 ^ 32 := by
  have hscaled := @scaled_eq_mean_iff _ _ _ _ _ cases _ _ (fun case _ => @reciprocalOf_le predictions case) 1
    (float (max cases.length 1)) le_rfl divisor_spec
  rw [one_mul] at hscaled
  rw [score_meanReciprocalRank hindexed, hscaled]
  simp only [reciprocalCounted_eq_zero, reciprocalOf_eq_iff, true_and]

include hrelevant

theorem averages_iff : Averages predictions cutoffs cases (score log2 cases indexed cutoffs) ↔
    Counted predictions cutoffs cases := by
  constructor
  · intro h
    have hhit (k : Nat) (hk : k ∈ cutoffs) := (hitAt_eq_iff hindexed hk).mp ((h.hitAt k).trans (if_pos hk))
    have hrecall (k : Nat) (hk : k ∈ cutoffs) :=
      (recallAt_eq_iff hindexed hrelevant hk).mp ((h.recallAt k).trans (if_pos hk))
    have hrank := (meanReciprocalRank_eq_iff hindexed).mp h.meanReciprocalRank
    refine ⟨fun k hk hsome => ?_, fun hsome => ?_, fun case hcase place hplace => ?_, fun case hcase k hk => ?_⟩
    · obtain ⟨case, hcase, hfound⟩ := hsome
      exact ((hhit k hk).resolve_left fun hnone => hnone case hcase hfound).1
    · obtain ⟨case, hcase, hfound⟩ := hsome
      have hfew := hrank.resolve_left fun hnone => Bool.false_ne_true ((hnone case hcase).symm.trans hfound)
      exact (divisor_eq_iff (List.ne_nil_of_mem hcase)).mp hfew.1
    · refine (hrank.resolve_left fun hnone => ?_).2 case hcase place hplace
      have hnot := hnone case hcase
      rw [hplace] at hnot
      cases hnot
    · obtain hnone | ⟨-, -, hall⟩ := hrecall k hk
      · exact .inl (hnone case hcase)
      · exact hall case hcase
  · intro h
    have hlength {k : Nat} {case : EvaluationCase} (hcase : case ∈ cases) (hfound : Hit predictions k case) :
        float (max cases.length 1) = cases.length :=
      (divisor_eq_iff (List.ne_nil_of_mem hcase)).mpr (h.few ⟨case, hcase, rank_isSome hfound⟩)
    refine ⟨rfl, fun k => ?_, fun k => ?_, (meanReciprocalRank_eq_iff hindexed).mpr ?_⟩
    · by_cases hk : k ∈ cutoffs
      · rw [if_pos hk, hitAt_eq_iff hindexed hk]
        by_cases hsome : ∃ case ∈ cases, Hit predictions k case
        · obtain ⟨case, hcase, hfound⟩ := hsome
          exact .inr ⟨h.once k hk ⟨case, hcase, hfound⟩, hlength hcase hfound⟩
        · exact .inl fun case hcase hfound => hsome ⟨case, hcase, hfound⟩
      · rw [score_hitAt hindexed, if_neg hk, if_neg hk]
    · by_cases hk : k ∈ cutoffs
      · rw [if_pos hk, recallAt_eq_iff hindexed hrelevant hk]
        by_cases hsome : ∃ case ∈ cases, Hit predictions k case
        · obtain ⟨case, hcase, hfound⟩ := hsome
          exact .inr ⟨h.once k hk ⟨case, hcase, hfound⟩, hlength hcase hfound,
            fun case hcase => h.relevant case hcase k hk⟩
        · refine .inl fun case hcase => ?_
          by_contra hne
          exact hsome ⟨case, hcase, hit_iff.mpr (Nat.pos_of_ne_zero hne)⟩
      · rw [score_recallAt hindexed, if_neg hk, if_neg hk]
    · by_cases hsome : ∃ case ∈ cases, (rank predictions case).isSome = true
      · obtain ⟨case, hcase, hfound⟩ := hsome
        exact .inr ⟨(divisor_eq_iff (List.ne_nil_of_mem hcase)).mpr (h.few ⟨case, hcase, hfound⟩), h.ranks⟩
      · exact .inl fun case hcase => Bool.eq_false_iff.mpr fun hfound => hsome ⟨case, hcase, hfound⟩

end Score

theorem Counted.subset {others : List EvaluationCase} (h : Counted predictions cutoffs cases)
    (hsub : others.Sublist cases) : Counted predictions cutoffs others where
  once k hk hsome := h.once k hk (hsome.imp fun _ hcase => ⟨hsub.subset hcase.1, hcase.2⟩)
  few hsome := hsub.length_le.trans_lt (h.few (hsome.imp fun _ hcase => ⟨hsub.subset hcase.1, hcase.2⟩))
  ranks case hcase := h.ranks case (hsub.subset hcase)
  relevant case hcase := h.relevant case (hsub.subset hcase)

/-- Averages are fractions, and those for the cutoffs never fall. -/
theorem Averages.regular {metrics : RetrievalMetrics} (h : Averages predictions cutoffs cases metrics) :
    Regular metrics := by
  have hhit (case : EvaluationCase) (k : Nat) : InUnit (hitOf predictions k case) := by
    rw [hitOf]
    split
    next => exact ⟨zero_le_one, le_rfl⟩
    next => exact ⟨le_rfl, zero_le_one⟩
  have hhits (k : Nat) : InUnit (mean (hitOf predictions k) cases) :=
    ⟨mean_nonneg fun case _ => (hhit case k).1, mean_le_one fun case _ => (hhit case k).2⟩
  have hrecalls (k : Nat) : InUnit (mean (recallOf predictions k) cases) :=
    ⟨mean_nonneg fun _ _ => recallOf_nonneg, mean_le_one fun _ _ => recallOf_le_one⟩
  have hrises {k k' : Nat} (hk : k ≤ k') (case : EvaluationCase) :
      hitOf predictions k case ≤ hitOf predictions k' case := by
    by_cases hfound : Hit predictions k case
    · have hlater : Hit predictions k' case :=
        hit_iff.mpr ((hit_iff.mp hfound).trans_le (found_mono predictions hk case))
      rw [hitOf, hitOf, if_pos hfound, if_pos hlater]
    · rw [hitOf, if_neg hfound]
      exact (hhit case k').1
  have hrecall {k k' : Nat} (hk : k ≤ k') (case : EvaluationCase) :
      recallOf predictions k case ≤ recallOf predictions k' case :=
    div_le_div_of_nonneg_right (Nat.cast_le.mpr (found_mono predictions hk case)) (Nat.cast_nonneg _)
  refine ⟨fun k value hvalue => ?_, fun k value hvalue => ?_, ?_, fun k k' value value' hk hvalue hvalue' => ?_,
    fun k k' value value' hk hvalue hvalue' => ?_⟩
  · rw [h.hitAt, Option.ite_none_right_eq_some] at hvalue
    rw [← Option.some.inj hvalue.2]
    exact hhits k
  · rw [h.recallAt, Option.ite_none_right_eq_some] at hvalue
    rw [← Option.some.inj hvalue.2]
    exact hrecalls k
  · rw [h.meanReciprocalRank]
    exact ⟨mean_nonneg fun case _ => (reciprocalOf_le case).1, mean_le_one fun case _ => reciprocalOf_le_one case⟩
  · rw [h.hitAt, Option.ite_none_right_eq_some] at hvalue hvalue'
    rw [← Option.some.inj hvalue.2, ← Option.some.inj hvalue'.2]
    exact mean_le_mean fun case _ => hrises hk case
  · rw [h.recallAt, Option.ite_none_right_eq_some] at hvalue hvalue'
    rw [← Option.some.inj hvalue.2, ← Option.some.inj hvalue'.2]
    exact mean_le_mean fun case _ => hrecall hk case

def scoredCategories (log2 : ℚ → ℚ) (cases : List EvaluationCase) (indexed : BTreeMap Text (List Text))
    (cutoffs : List Nat) : BTreeMap Text RetrievalMetrics :=
  (groups EvaluationCase.category cases).map fun _ group => score log2 group indexed cutoffs

theorem valuesOf_scoredCategories : valuesOf (scoredCategories log2 cases indexed cutoffs) =
    (groups EvaluationCase.category cases).toList.map fun group => score log2 group.2 indexed cutoffs := by
  rw [valuesOf, scoredCategories, Std.ExtTreeMap.toList_map, List.map_map]
  rfl

theorem weighted_eq_mean {overall : RetrievalMetrics} {value : RetrievalMetrics → ℚ} {quantity : EvaluationCase → ℚ}
    (h : ∀ group ∈ (groups EvaluationCase.category cases).toList,
      value (score log2 group.2 indexed cutoffs) = mean quantity group.2) :
    weighted ⟨overall, scoredCategories log2 cases indexed cutoffs⟩ value = mean quantity cases := by
  have hvalues : ((valuesOf (scoredCategories log2 cases indexed cutoffs)).map fun metrics =>
      metrics.cases * value metrics).sum = (cases.map quantity).sum := by
    rw [valuesOf_scoredCategories, List.map_map, ← sum_groups EvaluationCase.category quantity cases]
    refine congrArg List.sum (List.map_congr_left fun group hgroup => ?_)
    rw [Function.comp_apply, h group hgroup]
    exact length_mul_mean
  have hcounts : ((valuesOf (scoredCategories log2 cases indexed cutoffs)).map fun metrics => (metrics.cases : ℚ)).sum =
      cases.length := by
    have hones := sum_groups EvaluationCase.category (fun _ => (1 : ℚ)) cases
    rw [List.map_const', List.sum_replicate, nsmul_one] at hones
    rw [valuesOf_scoredCategories, List.map_map, ← hones]
    refine congrArg List.sum (List.map_congr_left fun group _ => ?_)
    rw [List.map_const', List.sum_replicate, nsmul_one]
    rfl
  rw [weighted, hvalues, hcounts, mean]

theorem evaluateRetrieval_eq_ok {report : EvaluationReport}
    (h : evaluateRetrieval log2 cases predictions cutoffs = .ok report) :
    (∀ case ∈ cases, 0 < case.relevantIds.size) ∧ ∃ indexed : BTreeMap Text (List Text),
      (∀ case : EvaluationCase, indexed[case.id]?.getD [] = rankedFor predictions case) ∧
      report = ⟨score log2 cases indexed cutoffs, scoredCategories log2 cases indexed cutoffs⟩ := by
  obtain ⟨-, h⟩ := unit_bind_eq_ok.mp h
  obtain ⟨known, hknown, h⟩ := bind_eq_ok.mp h
  obtain ⟨indexed, hindexed, h⟩ := bind_eq_ok.mp h
  exact ⟨validateCases_relevant hknown, indexed, rankedFor_eq hindexed, (Except.ok.inj h).symm⟩

/-- The metrics are proper averages if no cutoff that scores is repeated and all counts are exact, and only then. -/
theorem averages_proper_iff {report : EvaluationReport}
    (h : evaluateRetrieval log2 cases predictions cutoffs = .ok report) :
    ProperAverages predictions cutoffs cases report ↔ Counted predictions cutoffs cases := by
  obtain ⟨hrelevant, indexed, hindexed, rfl⟩ := evaluateRetrieval_eq_ok h
  refine ⟨fun hproper => (averages_iff hindexed hrelevant).mp hproper.overall, fun hcounted => ?_⟩
  have hoverall := (@averages_iff log2 _ _ _ _ hindexed hrelevant).mpr hcounted
  have hgroup {category : Text} {group : List EvaluationCase}
      (hgroup : (category, group) ∈ (groups EvaluationCase.category cases).toList) :
      Averages predictions cutoffs group (score log2 group indexed cutoffs) := by
    obtain ⟨-, rfl⟩ := mem_groups.mp hgroup
    exact (averages_iff hindexed fun case hcase => hrelevant case (List.mem_of_mem_filter hcase)).mpr
      (Counted.subset hcounted List.filter_sublist)
  have hcategory (category : Text) (metrics : RetrievalMetrics) :
      (scoredCategories log2 cases indexed cutoffs)[category]? = some metrics ↔
        ∃ group, (category, group) ∈ (groups EvaluationCase.category cases).toList ∧
          score log2 group indexed cutoffs = metrics := by
    simp only [scoredCategories, Std.ExtTreeMap.getElem?_map, Option.map_eq_some_iff,
      Std.ExtTreeMap.mem_toList_iff_getElem?_eq_some]
  refine ⟨hoverall, fun category => ?_, fun category metrics hmetrics => ?_, fun metrics hmetrics => ?_,
    fun k hk => ?_, fun k hk => ?_, ?_⟩
  · rw [Std.ExtTreeMap.contains_eq_isSome_getElem?, Option.isSome_iff_exists]
    simp only [hcategory, mem_groups]
    constructor
    · rintro ⟨metrics, group, ⟨hne, rfl⟩, -⟩
      obtain ⟨case, hcase⟩ := List.exists_mem_of_ne_nil _ hne
      obtain ⟨hmem, hsame⟩ := List.mem_filter.mp hcase
      exact ⟨case, hmem, of_decide_eq_true hsame⟩
    · rintro ⟨case, hcase, hsame⟩
      exact ⟨_, _, ⟨List.ne_nil_of_mem (List.mem_filter.mpr ⟨hcase, decide_eq_true hsame⟩), rfl⟩, rfl⟩
  · obtain ⟨group, hmem, rfl⟩ := (hcategory category metrics).mp hmetrics
    have haverages := hgroup hmem
    rwa [(mem_groups.mp hmem).2] at haverages ⊢
  · obtain rfl | hmetrics := hmetrics
    · exact Averages.regular hoverall
    · obtain ⟨category, hfound⟩ := mem_valuesOf.mp hmetrics
      obtain ⟨group, hmem, rfl⟩ := (hcategory category metrics).mp hfound
      exact Averages.regular (hgroup hmem)
  · rw [hoverall.hitAt, if_pos hk, weighted_eq_mean fun group hmem => ?_]
    rw [Std.ExtTreeMap.getD_eq_getD_getElem?, (hgroup hmem).hitAt, if_pos hk, Option.getD_some]
  · rw [hoverall.recallAt, if_pos hk, weighted_eq_mean fun group hmem => ?_]
    rw [Std.ExtTreeMap.getD_eq_getD_getElem?, (hgroup hmem).recallAt, if_pos hk, Option.getD_some]
  · rw [hoverall.meanReciprocalRank, weighted_eq_mean fun group hmem => (hgroup hmem).meanReciprocalRank]

/-- The logarithm of 2, which is all that the examples ask for. -/
def halved (value : ℚ) : ℚ := value / 2

def caseOne : EvaluationCase where
  id := ⟨"one", by decide⟩
  category := ⟨"temporal", by decide⟩
  relevantIds := (∅ : BTreeSet Text).insert ⟨"a", by decide⟩

def caseTwo : EvaluationCase where
  id := ⟨"two", by decide⟩
  category := ⟨"provenance", by decide⟩
  relevantIds := (∅ : BTreeSet Text).insert ⟨"c", by decide⟩

def predictionOne : RankedPrediction where
  caseId := caseOne.id
  rankedIds := ⟨[⟨"a", by decide⟩, ⟨"x", by decide⟩, ⟨"a", by decide⟩], by decide⟩

theorem averages_proper_iff_two : ∃ report,
    evaluateRetrieval halved [caseOne, caseTwo] [predictionOne] [2, 1] = .ok report ∧
    ProperAverages [predictionOne] [2, 1] [caseOne, caseTwo] report := by
  obtain ⟨report, hreport⟩ := @exists_ok_of_isOk _ (evaluateRetrieval halved [caseOne, caseTwo] [predictionOne] [2, 1])
    (by decide +kernel)
  have hranks : ∀ case ∈ [caseOne, caseTwo], (rank [predictionOne] case).all (· < 2 ^ 32) = true := by decide +kernel
  have honce : ∀ k ∈ [2, 1], [2, 1].count k = 1 := by decide
  have hsizes : ∀ case ∈ [caseOne, caseTwo], case.relevantIds.size < 2 ^ 32 := by decide +kernel
  refine ⟨report, hreport, (averages_proper_iff hreport).mpr ⟨fun k hk _ => honce k hk, fun _ => (by decide),
    fun case hcase place hplace => ?_, fun case hcase _ _ => .inr (.inr (hsizes case hcase))⟩⟩
  have hall := hranks case hcase
  rw [hplace, Option.all_some] at hall
  exact of_decide_eq_true hall

/-- A cutoff that is listed twice is counted twice. -/
theorem hit_counted_twice : ∃ report, evaluateRetrieval halved [caseOne] [predictionOne] [1, 1] = .ok report ∧
    report.overall.hitAt[1]? = some 2 ∧ ¬ ProperAverages [predictionOne] [1, 1] [caseOne] report := by
  have hhit : (evaluateRetrieval halved [caseOne] [predictionOne] [1, 1]).map (fun report => report.overall.hitAt[1]?) =
      .ok (some 2) := by
    decide +kernel
  obtain ⟨report, hreport, htwice⟩ := map_eq_ok.mp hhit
  refine ⟨report, hreport, htwice, fun hproper => ?_⟩
  have hunit := (hproper.regular report.overall (.inl rfl)).hitAt 1 2 htwice
  exact absurd hunit.2 (by decide +kernel)

end WeavatrixMemory.Evaluation.Exactness
