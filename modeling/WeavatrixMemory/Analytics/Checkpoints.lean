import WeavatrixMemory.Analytics.Consolidation

namespace WeavatrixMemory.Analytics.Checkpoints

open Error Identity Domain GraphProjection Analytics.Model Analytics.Timeline Analytics.Consolidation
open Projection.State Projection.Memory Projection.Invariant

def Supersedes (p : MemoryProjection) (id prior : FactId) : Prop :=
  ∃ fact ∈ p.facts, fact.id = id ∧ fact.supersedes = some prior

/-- The action keeps one of its facts, which no other of them supersedes. -/
def KeepsCurrent (p : MemoryProjection) (action : ConsolidationAction) : Prop :=
  ∃ kept, action.keep = some kept ∧ kept ∈ action.affectedFacts ∧
    ∀ other ∈ action.affectedFacts, other ≠ kept → ¬ Supersedes p other kept

/-- The last of the facts by `(recorded_at, id)` is none that another one supersedes. -/
def EndsCurrent (facts : List MemoryFact) : Prop :=
  ∀ fact ∈ facts, ∀ replacement ∈ facts, replacement.id ≠ fact.id → replacement.supersedes = some fact.id →
    ∃ later ∈ facts, timeOrder fact later = .lt

instance (facts : List MemoryFact) : Decidable (EndsCurrent facts) :=
  inferInstanceAs (Decidable (∀ fact ∈ facts, ∀ replacement ∈ facts, _ → _ → ∃ later ∈ facts, _))

variable {crate : GraphCrate} {queries : GraphQueries crate} {p : MemoryProjection} {clock : ProjectionClock}
  {graph : crate.Graph} {key : ChainKey}

theorem checkpoint_keepsCurrent_iff (hp : Valid p) (hlong : Long p clock key) :
    KeepsCurrent p (checkpoint p clock key) ↔ EndsCurrent (chain p clock.knownAt key) := by
  have hdistinct := distinct_chain hp clock.knownAt key
  obtain ⟨last, hlast⟩ := exists_last hlong.chain_ne_nil
  have hlater {fact : MemoryFact} (hf : fact ∈ chain p clock.knownAt key) := later_iff_ne_last hdistinct hlast hf
  have hmem : last ∈ chain p clock.knownAt key := mem_timeline.mp (List.mem_of_getLast? hlast)
  have hkeep : (checkpoint p clock key).keep = some last.id := congrArg (Option.map MemoryFact.id) hlast
  constructor
  · rintro ⟨kept, hkept, -, hcurrent⟩ fact hf replacement hr hne hsupersedes
    obtain rfl : last.id = kept := Option.some.inj (hkeep.symm.trans hkept)
    refine (hlater hf).mpr ?_
    rintro rfl
    exact hcurrent replacement.id (mem_revisionAction.mpr ⟨replacement, hr, rfl⟩) hne
      ⟨replacement, (mem_chain.mp hr).1, rfl, hsupersedes⟩
  · intro hends
    refine ⟨last.id, hkeep, mem_revisionAction.mpr ⟨last, hmem, rfl⟩, fun other hother hne => ?_⟩
    rintro ⟨fact, hf, hid, hsupersedes⟩
    obtain ⟨replacement, hr, rfl⟩ := mem_revisionAction.mp hother
    obtain rfl := hp.indexed.fact_unique hf (mem_chain.mp hr).1 hid
    exact (hlater hmem).mp (hends last hmem fact hr hne hsupersedes) rfl

theorem checkpoints_current {maxActions : Nat} {plan : ConsolidationPlan} (hp : Valid p)
    (h : consolidationPlan queries p clock maxActions = .ok plan)
    (hgraph : projectGraph crate (view p clock) = .ok graph) :
    (∀ action ∈ plan.actions, action.kind = .compactRevisionChain → KeepsCurrent p action) ↔
      ∀ key, Long p clock key → position queries p clock graph key < maxActions →
        EndsCurrent (chain p clock.knownAt key) := by
  constructor
  · intro hcurrent key hlong hroom
    exact (checkpoint_keepsCurrent_iff hp hlong).mp
      (hcurrent _ ((checkpoint_mem_iff hp h hgraph hlong).mpr hroom) rfl)
  · intro hends action haction hkind
    obtain ⟨key, hlong, rfl⟩ := checkpoint_of_mem_plan h hgraph haction hkind
    exact (checkpoint_keepsCurrent_iff hp hlong).mpr
      (hends key hlong ((checkpoint_mem_iff hp h hgraph hlong).mp haction))

theorem checkpoints_current_in_turn : ∃ p graph plan, Example inTurn p graph ∧
    consolidationPlan listQueries p ⟨Common.ts 60, Common.ts 60⟩ 100 = .ok plan ∧
    ∀ action ∈ plan.actions, action.kind = .compactRevisionChain → KeepsCurrent p action := by
  obtain ⟨p, graph, hexample⟩ := exists_inTurn
  obtain ⟨plan, hplan⟩ := @exists_plan _ listQueries _ _ _ 100 hexample.projected (by decide)
  refine ⟨p, graph, plan, hexample, hplan,
    (checkpoints_current hexample.valid hplan hexample.projected).mpr fun key hlong _ => ?_⟩
  obtain ⟨fact, hfact⟩ := List.exists_mem_of_ne_nil _ hlong.chain_ne_nil
  obtain ⟨hmem, -, hkey⟩ := mem_chain.mp hfact
  have hchains : ∀ fact ∈ inTurn, chainOf fact = taskAffects := by decide
  rw [hexample.facts] at hmem
  rw [← hkey, hchains fact hmem, chain, knownFacts, hexample.facts]
  decide +kernel

/-- Of a fact and three corrections that are recorded at once, the checkpoint keeps the first one. -/
theorem checkpoint_outdated : ∃ p graph maxActions plan, Example atOnce p graph ∧
    consolidationPlan listQueries p ⟨Common.ts 60, Common.ts 60⟩ maxActions = .ok plan ∧
    ¬ ∀ action ∈ plan.actions, action.kind = .compactRevisionChain → KeepsCurrent p action := by
  obtain ⟨p, graph, hexample⟩ := exists_atOnce
  obtain ⟨plan, hplan⟩ := @exists_plan _ listQueries _ _ _
    (position listQueries p ⟨Common.ts 60, Common.ts 60⟩ graph taskAffects + 1) hexample.projected (Nat.succ_ne_zero _)
  refine ⟨p, graph, _, plan, hexample, hplan, fun hcurrent => ?_⟩
  have hlong : Long p ⟨Common.ts 60, Common.ts 60⟩ taskAffects := by
    rw [Long, chain, knownFacts, hexample.facts]
    decide +kernel
  have hmem := (checkpoint_mem_iff hexample.valid hplan hexample.projected hlong).mpr (Nat.lt_succ_self _)
  have hends := (checkpoint_keepsCurrent_iff hexample.valid hlong).mp (hcurrent _ hmem rfl)
  rw [chain, knownFacts, hexample.facts] at hends
  revert hends
  decide +kernel

end WeavatrixMemory.Analytics.Checkpoints
