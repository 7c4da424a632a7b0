import WeavatrixMemory.Analytics.Model
import WeavatrixMemory.Analytics.Timeline

namespace WeavatrixMemory.Analytics.Drift

open Error Identity Domain Sorting Analytics.Model Analytics.Timeline
open Projection.State Projection.Memory Projection.Invariant

def classify (prior current : MemoryFact) : ChangeKind :=
  if current.supersedes = some prior.id ∨ current.target ≠ prior.target then .corrected
  else if prior.confidence.basisPoints < current.confidence.basisPoints then .reinforced
  else if current.confidence.basisPoints < prior.confidence.basisPoints then .weakened
  else .refined

def snapshotOf (prior : Option MemoryFact) (fact : MemoryFact) : DriftSnapshot where
  fact := fact.id
  target := fact.target
  recordedAt := fact.recordedAt
  confidenceBps := fact.confidence.basisPoints
  change := prior.elim .initial (classify · fact)

/-- The loop of `drift`. -/
def snapshotsFrom : Option MemoryFact → List MemoryFact → List DriftSnapshot
  | _, [] => []
  | prior, fact :: rest => snapshotOf prior fact :: snapshotsFrom (some fact) rest

def stability (snapshots : List DriftSnapshot) (corrections : Nat) : UInt16 :=
  let transitions := snapshots.length - 1
  if transitions = 0 then 10000
  else
    let other := transitions - corrections
    let penalty := min (usizeSaturatingAdd (usizeSaturatingMul corrections 6000)
      (usizeSaturatingMul other 1000) / transitions) 10000
    u16Or 0 (10000 - penalty)

def drift (p : MemoryProjection) (source : EntityId) (relation : Text) (knownAt : Timestamp) : Result DriftReport := do
  throwIf (relation.str = "" ∨ trim relation.str ≠ relation.str)
    (.invalidValue "drift.relation" "must be non-empty without surrounding whitespace")
  let facts := timeline (p.facts.filter fun fact =>
    fact.source = source ∧ fact.relation = relation ∧ fact.recordedAt ≤ knownAt)
  let snapshots := snapshotsFrom none facts
  let correctionCount := (snapshots.filter fun snapshot => snapshot.change = .corrected).length
  let stabilityBps := stability snapshots correctionCount
  .ok
    { source, relation, snapshots, correctionCount, stabilityBps
      likelyToChange := 2 ≤ correctionCount ∨ stabilityBps < 6000 }

def Replaces (facts : List MemoryFact) (fact : MemoryFact) : Prop :=
  ∃ prior ∈ facts, fact.supersedes = some prior.id

instance (facts : List MemoryFact) (fact : MemoryFact) : Decidable (Replaces facts fact) :=
  inferInstanceAs (Decidable (∃ prior ∈ facts, _))

structure JustBefore (facts : List MemoryFact) (prior fact : MemoryFact) : Prop where
  mem : prior ∈ facts
  lt : timeOrder prior fact = .lt
  last : ∀ other ∈ facts, timeOrder other fact = .lt → (timeOrder other prior).isLE = true

/-- The report lists each of the facts once, and counts every correction among them. -/
structure Counts (report : DriftReport) (facts : List MemoryFact) : Prop where
  once : (report.snapshots.map (·.fact)).Nodup
  listed : ∀ id, id ∈ report.snapshots.map (·.fact) ↔ id ∈ facts.map MemoryFact.id
  corrected : ∀ fact ∈ facts, Replaces facts fact → ∀ snapshot ∈ report.snapshots, snapshot.fact = fact.id →
    snapshot.change = .corrected
  counted : (facts.filter (Replaces facts)).length ≤ report.correctionCount

variable {p : MemoryProjection} {facts : List MemoryFact} {fact prior : MemoryFact} {snapshot : DriftSnapshot}

theorem classify_eq_corrected :
    classify prior fact = .corrected ↔ fact.supersedes = some prior.id ∨ fact.target ≠ prior.target := by
  rw [classify]
  split
  next h => exact iff_of_true rfl h
  next h =>
    refine iff_of_false ?_ h
    split
    next => exact fun heq => by cases heq
    next =>
      split
      next => exact fun heq => by cases heq
      next => exact fun heq => by cases heq

theorem map_fact_snapshotsFrom (prior : Option MemoryFact) (facts : List MemoryFact) :
    (snapshotsFrom prior facts).map (·.fact) = facts.map MemoryFact.id := by
  induction facts generalizing prior with
  | nil => rfl
  | cons fact rest ih => exact congrArg (fact.id :: ·) (ih (some fact))

theorem mem_snapshotsFrom {first : Option MemoryFact} : snapshot ∈ snapshotsFrom first facts ↔
    ∃ before fact after, facts = before ++ fact :: after ∧ snapshot = snapshotOf (before.getLast?.or first) fact := by
  induction facts generalizing first with
  | nil => simp [snapshotsFrom]
  | cons head rest ih =>
      rw [snapshotsFrom, List.mem_cons, ih]
      constructor
      · rintro (rfl | ⟨before, fact, after, rfl, rfl⟩)
        · exact ⟨[], head, rest, rfl, rfl⟩
        · refine ⟨head :: before, fact, after, rfl, ?_⟩
          rw [List.getLast?_cons]
          cases before.getLast? <;> rfl
      · rintro ⟨before, fact, after, hsplit, rfl⟩
        cases before with
        | nil =>
            obtain ⟨rfl, rfl⟩ := List.cons.inj hsplit
            exact .inl rfl
        | cons other before =>
            obtain ⟨rfl, rfl⟩ := List.cons.inj hsplit
            refine .inr ⟨before, fact, after, rfl, ?_⟩
            rw [List.getLast?_cons]
            cases before.getLast? <;> rfl

theorem justBefore_iff {before after : List MemoryFact} (h : Distinct facts)
    (hsplit : timeline facts = before ++ fact :: after) :
    JustBefore facts prior fact ↔ before.getLast? = some prior := by
  have hsorted := pairwise_timeline facts
  rw [hsplit] at hsorted
  obtain ⟨hbefore, -, -⟩ := List.pairwise_append.mp hsorted
  have hlast (last : MemoryFact) (hlast : before.getLast? = some last) (other : MemoryFact) (ho : other ∈ before) :
      (timeOrder other last).isLE = true := by
    obtain ⟨earlier, rfl⟩ := List.getLast?_eq_some_iff.mp hlast
    obtain ho | ho := List.mem_append.mp ho
    · exact (List.pairwise_append.mp hbefore).2.2 other ho last List.mem_cons_self
    · obtain rfl := List.mem_singleton.mp ho
      exact isLE_refl _
  constructor
  · intro hprior
    have hmem := (mem_before_iff h hsplit).mpr ⟨hprior.mem, hprior.lt⟩
    cases hl : before.getLast? with
    | none =>
        rw [List.getLast?_eq_none_iff.mp hl] at hmem
        exact absurd hmem List.not_mem_nil
    | some last =>
        obtain ⟨hlf, hlt⟩ := (mem_before_iff h hsplit).mp (List.mem_of_getLast? hl)
        have heq := Std.OrientedCmp.isLE_antisymm (hprior.last last hlf hlt) (hlast last hl prior hmem)
        rw [h.eq hlf hprior.mem (id_of_timeOrder heq)]
  · intro hl
    obtain ⟨hmem, hlt⟩ := (mem_before_iff h hsplit).mp (List.mem_of_getLast? hl)
    exact ⟨hmem, hlt, fun other ho hlt => hlast prior hl other ((mem_before_iff h hsplit).mpr ⟨ho, hlt⟩)⟩

/-- The fact is compared with the fact that it supersedes, or with one that has another target. -/
def Corrects (facts : List MemoryFact) (fact : MemoryFact) : Prop :=
  ∃ prior, JustBefore facts prior fact ∧ (fact.supersedes = some prior.id ∨ fact.target ≠ prior.target)

theorem snapshotOf_corrected_iff {before after : List MemoryFact} (h : Distinct facts)
    (hsplit : timeline facts = before ++ fact :: after) :
    (snapshotOf (before.getLast?.or none) fact).change = .corrected ↔ Corrects facts fact := by
  rw [Option.or_none]
  constructor
  · intro hchange
    cases hl : before.getLast? with
    | none =>
        rw [hl] at hchange
        cases hchange
    | some prior =>
        rw [hl] at hchange
        exact ⟨prior, (justBefore_iff h hsplit).mpr hl, classify_eq_corrected.mp hchange⟩
  · rintro ⟨prior, hprior, hcorrects⟩
    rw [(justBefore_iff h hsplit).mp hprior]
    exact classify_eq_corrected.mpr hcorrects

theorem length_filter_le (P : MemoryFact → Bool) (first : Option MemoryFact) (facts : List MemoryFact)
    (h : ∀ before fact after, facts = before ++ fact :: after → P fact = true →
      (snapshotOf (before.getLast?.or first) fact).change = .corrected) :
    (facts.filter P).length ≤
      ((snapshotsFrom first facts).filter fun snapshot => snapshot.change = .corrected).length := by
  induction facts generalizing first with
  | nil => exact le_rfl
  | cons fact rest ih =>
      have hrest := ih (some fact) fun before other after hsplit hP => by
        have hother := h (fact :: before) other after (by rw [hsplit]; rfl) hP
        rw [List.getLast?_cons] at hother
        cases hl : before.getLast? with
        | none =>
            rw [hl] at hother
            exact hother
        | some last =>
            rw [hl] at hother
            exact hother
      rw [snapshotsFrom, List.filter_cons, List.filter_cons]
      by_cases hP : P fact = true
      · have hhead : decide ((snapshotOf first fact).change = .corrected) = true :=
          decide_eq_true (h [] fact rest rfl hP)
        rw [if_pos hP, if_pos hhead]
        exact Nat.succ_le_succ hrest
      · rw [if_neg hP]
        split
        next => exact hrest.trans (Nat.le_succ _)
        next => exact hrest

theorem drift_eq_ok {source : EntityId} {relation : Text} {knownAt : Timestamp} {report : DriftReport}
    (h : drift p source relation knownAt = .ok report) :
    report.snapshots = snapshotsFrom none (timeline (chain p knownAt ⟨source, relation⟩)) ∧
      report.correctionCount = (report.snapshots.filter fun snapshot => snapshot.change = .corrected).length := by
  obtain ⟨⟨⟩, -, h⟩ := bind_eq_ok.mp h
  obtain rfl := Except.ok.inj h
  have hchain : chain p knownAt ⟨source, relation⟩ = p.facts.filter fun fact =>
      fact.source = source ∧ fact.relation = relation ∧ fact.recordedAt ≤ knownAt := by
    rw [chain, knownFacts, List.filter_filter]
    apply List.filter_congr
    intro fact _
    simp only [chainOf, ChainKey.mk.injEq, Bool.decide_and, Bool.and_assoc]
  rw [hchain]
  exact ⟨rfl, rfl⟩

theorem counts_iff (hdistinct : Distinct facts) {report : DriftReport}
    (hsnapshots : report.snapshots = snapshotsFrom none (timeline facts))
    (hcount : report.correctionCount = (report.snapshots.filter fun snapshot => snapshot.change = .corrected).length) :
    Counts report facts ↔ ∀ fact ∈ facts, Replaces facts fact → Corrects facts fact := by
  have hfacts : report.snapshots.map (·.fact) = (timeline facts).map MemoryFact.id := by
    rw [hsnapshots, map_fact_snapshotsFrom]
  have hmem {before fact after} (hsplit : timeline facts = before ++ fact :: after) : fact ∈ facts := by
    apply mem_timeline.mp
    rw [hsplit]
    exact List.mem_append_right _ List.mem_cons_self
  constructor
  · intro hcounts fact hf hreplaces
    obtain ⟨before, after, hsplit⟩ := List.append_of_mem (mem_timeline.mpr hf)
    have hsnapshot : snapshotOf (before.getLast?.or none) fact ∈ report.snapshots := by
      rw [hsnapshots]
      exact mem_snapshotsFrom.mpr ⟨before, fact, after, hsplit, rfl⟩
    exact (snapshotOf_corrected_iff hdistinct hsplit).mp (hcounts.corrected fact hf hreplaces _ hsnapshot rfl)
  · intro hcorrects
    refine ⟨?_, fun id => ?_, fun fact hf hreplaces snapshot hsnapshot hfact => ?_, ?_⟩
    · rw [hfacts]
      exact hdistinct.timeline
    · rw [hfacts]
      exact ((timeline_perm facts).map MemoryFact.id).mem_iff
    · rw [hsnapshots, mem_snapshotsFrom] at hsnapshot
      obtain ⟨before, other, after, hsplit, rfl⟩ := hsnapshot
      obtain rfl := hdistinct.eq (hmem hsplit) hf hfact
      exact (snapshotOf_corrected_iff hdistinct hsplit).mpr (hcorrects other hf hreplaces)
    · rw [hcount, hsnapshots, ← ((timeline_perm facts).filter _).length_eq]
      apply length_filter_le
      intro before fact after hsplit hreplaces
      exact (snapshotOf_corrected_iff hdistinct hsplit).mpr
        (hcorrects fact (hmem hsplit) (of_decide_eq_true hreplaces))

/-- Every correction is counted if each of them is compared with what shows it. -/
theorem drift_counts_iff (hp : Valid p) {source : EntityId} {relation : Text} {knownAt : Timestamp}
    {report : DriftReport} (h : drift p source relation knownAt = .ok report) :
    Counts report (chain p knownAt ⟨source, relation⟩) ↔
      ∀ fact ∈ chain p knownAt ⟨source, relation⟩, Replaces (chain p knownAt ⟨source, relation⟩) fact →
        Corrects (chain p knownAt ⟨source, relation⟩) fact :=
  counts_iff (distinct_chain hp knownAt _) (drift_eq_ok h).1 (drift_eq_ok h).2

instance (facts : List MemoryFact) (prior fact : MemoryFact) : Decidable (JustBefore facts prior fact) :=
  decidable_of_iff (prior ∈ facts ∧ timeOrder prior fact = .lt ∧
      ∀ other ∈ facts, timeOrder other fact = .lt → (timeOrder other prior).isLE = true)
    ⟨fun ⟨hmem, hlt, hlast⟩ => ⟨hmem, hlt, hlast⟩, fun h => ⟨h.mem, h.lt, h.last⟩⟩

instance (facts : List MemoryFact) (fact : MemoryFact) : Decidable (Corrects facts fact) :=
  decidable_of_iff (∃ prior ∈ facts, JustBefore facts prior fact ∧
      (fact.supersedes = some prior.id ∨ fact.target ≠ prior.target))
    ⟨fun ⟨prior, _, h⟩ => ⟨prior, h⟩, fun ⟨prior, h⟩ => ⟨prior, h.1.mem, h⟩⟩

theorem exists_drift (p : MemoryProjection) (knownAt : Timestamp) :
    ∃ report, drift p taskAffects.source taskAffects.relation knownAt = .ok report := by
  have htrimmed : ¬ (taskAffects.relation.str = "" ∨ trim taskAffects.relation.str ≠ taskAffects.relation.str) := by
    decide +kernel
  exact ⟨_, by rw [drift, throwIf_of_not htrimmed, ok_bind]⟩

theorem drift_counts_iff_in_turn : ∃ p report, replayed inTurn = .ok p ∧
    drift p taskAffects.source taskAffects.relation (Common.ts 60) = .ok report ∧
    Counts report (chain p (Common.ts 60) taskAffects) := by
  obtain ⟨p, -, hreplayed, hfacts, hp, -⟩ := exists_inTurn
  obtain ⟨report, hreport⟩ := exists_drift p (Common.ts 60)
  refine ⟨p, report, hreplayed, hreport, (drift_counts_iff hp hreport).mpr ?_⟩
  rw [chain, knownFacts, hfacts]
  decide +kernel

/-- Of three corrections that are recorded at once, none is counted. -/
theorem corrections_missed : ∃ p report, replayed atOnce = .ok p ∧
    drift p taskAffects.source taskAffects.relation (Common.ts 60) = .ok report ∧
    ¬ Counts report (chain p (Common.ts 60) taskAffects) := by
  obtain ⟨p, -, hreplayed, hfacts, hp, -⟩ := exists_atOnce
  obtain ⟨report, hreport⟩ := exists_drift p (Common.ts 60)
  refine ⟨p, report, hreplayed, hreport, fun hcounts => ?_⟩
  have hcorrects := (counts_iff (distinct_chain hp _ _) (drift_eq_ok hreport).1 (drift_eq_ok hreport).2).mp hcounts
  rw [chain, knownFacts, hfacts] at hcorrects
  revert hcorrects
  decide +kernel

end WeavatrixMemory.Analytics.Drift
