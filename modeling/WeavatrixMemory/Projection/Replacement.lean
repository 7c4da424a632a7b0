import Mathlib.Logic.Relation
import WeavatrixMemory.Projection.History

namespace WeavatrixMemory.Projection.Replacement

open Error Identity Domain Index State Memory Admission Invariant History Relation

inductive Updates (p : MemoryProjection) : MemoryProjection → Prop
  | apply (event : StoredEvent MemoryEvent) : Updates p (after (Memory.apply event p))
  | applyOwned (event : StoredEvent MemoryEvent) : Updates p (after (Memory.applyOwned event p))

/-- A fact replaces one that has been recorded before it, and the index lists the replacements. -/
structure Replacing (p : MemoryProjection) : Prop where
  earlier : ∀ (i : Nat) (fact : MemoryFact) prior, p.facts[i]? = some fact → fact.supersedes = some prior →
    ∃ j < i, ∃ replaced : MemoryFact, p.facts[j]? = some replaced ∧ replaced.id = prior
  records : Records p.facts p.supersessions

theorem replacing_default (seeds : Seeds) : Replacing (MemoryProjection.default seeds) where
  earlier := fun i fact prior hi => by
    simp [MemoryProjection.default, MemoryProjection.withCapacity] at hi
  records := Records.nil

variable {p q : MemoryProjection}

theorem Replacing.record (hp : Valid p) (h : Replacing p) {fact : MemoryFact} {source target : Nat}
    (ha : FactAdmitted p fact source target) : Replacing ((Change.record fact source target).commit p) where
  earlier := by
    intro i other prior hi hs
    change (p.facts ++ [fact])[i]? = some other at hi
    change ∃ j < i, ∃ replaced : MemoryFact, (p.facts ++ [fact])[j]? = some replaced ∧ replaced.id = prior
    have hbefore : ∃ j < i, ∃ replaced : MemoryFact, p.facts[j]? = some replaced ∧ replaced.id = prior := by
      by_cases hlt : i < p.facts.length
      · rw [List.getElem?_append_left hlt] at hi
        exact h.earlier i other prior hi hs
      · have hle := (List.getElem?_eq_some_iff.mp hi).1
        rw [List.length_append, List.length_singleton] at hle
        obtain rfl : i = p.facts.length := by omega
        rw [List.getElem?_concat_length, Option.some.injEq] at hi
        subst hi
        obtain ⟨j, hj⟩ := Option.ne_none_iff_exists'.mp (ha.prior prior hs).1
        obtain ⟨replaced, hr, hid⟩ := hp.indexed.fact_index.mp hj
        exact ⟨j, (List.getElem?_eq_some_iff.mp hr).1, replaced, hr, hid⟩
    obtain ⟨j, hj, replaced, hr, hid⟩ := hbefore
    have hlt := (List.getElem?_eq_some_iff.mp hr).1
    refine ⟨j, hj, replaced, ?_, hid⟩
    rw [List.getElem?_append_left hlt]
    exact hr
  records := h.records.supersede fun prior hs => (ha.prior prior hs).2

theorem Replacing.applied (hp : Valid p) (h : Replacing p) {event : StoredEvent MemoryEvent} {change : Change}
    (ha : Admitted p event.metadata event.payload change) : Replacing (change.applied p event) := by
  suffices hc : Replacing (change.commit p) from ⟨hc.earlier, hc.records⟩
  rcases event with ⟨metadata, payload⟩
  cases ha with
  | revise => exact ⟨h.earlier, h.records⟩
  | add => exact ⟨h.earlier, h.records⟩
  | record _ _ _ ha => exact h.record hp ha
  | retract => exact ⟨h.earlier, h.records⟩

theorem supersession_applied {event : StoredEvent MemoryEvent} {change : Change}
    (ha : Admitted p event.metadata event.payload change) {prior : FactId} {entry : Supersession}
    (he : p.supersessions[prior]? = some entry) :
    (change.applied p event).supersessions[prior]? = some entry := by
  rcases event with ⟨metadata, payload⟩
  cases ha with
  | revise => exact he
  | add => exact he
  | retract => exact he
  | @record fact source target _ _ _ ha =>
      change (supersede p.supersessions fact)[prior]? = some entry
      rw [supersede]
      cases hs : fact.supersedes with
      | none => exact he
      | some other =>
          have hne : compare other prior ≠ .eq := by
            intro heq
            rw [Std.LawfulEqOrd.eq_of_compare heq] at hs
            rw [(ha.prior prior hs).2] at he
            cases he
          rw [Std.ExtTreeMap.getElem?_insert, if_neg hne]
          exact he

theorem Updates.eq_or_applied (h : Updates p q) : q = p ∨ ∃ event change,
    Admitted p event.metadata event.payload change ∧ q = change.applied p event := by
  cases h with
  | apply event => exact (after_apply event p).imp id fun ⟨change, ha, hq⟩ => ⟨event, change, ha, hq⟩
  | applyOwned event =>
      rw [applyOwned_eq, ← apply_eq]
      exact (after_apply event p).imp id fun ⟨change, ha, hq⟩ => ⟨event, change, ha, hq⟩

theorem Reached.replacing {seeds : Seeds} (h : Reached seeds p) : Replacing p := by
  have hstep : ∀ {p q : MemoryProjection}, Reached seeds p → Replacing p → Updates p q → Replacing q := by
    intro p q hp hr hu
    obtain rfl | ⟨event, change, ha, rfl⟩ := hu.eq_or_applied
    · exact hr
    · exact hr.applied hp.valid ha
  induction h with
  | default => exact replacing_default seeds
  | apply event hp ih => exact hstep hp ih (.apply event)
  | applyOwned event hp ih => exact hstep hp ih (.applyOwned event)

theorem Replacing.not_both_active (h : Replacing p) {fact replaced : MemoryFact} (hf : fact ∈ p.facts)
    (hs : fact.supersedes = some replaced.id) (clock : ProjectionClock) :
    ¬ (factIsActive p fact clock = true ∧ factIsActive p replaced clock = true) := by
  intro hactive
  obtain ⟨hrecorded, hvalid, -⟩ := factIsActive_iff.mp hactive.1
  obtain ⟨-, -, -, hsuperseded, -⟩ := factIsActive_iff.mp hactive.2
  obtain hlt | hlt := hsuperseded _ ((h.records replaced.id _).mpr ⟨fact, hf, hs, rfl⟩)
  · exact absurd hrecorded (not_le.mpr hlt)
  · exact absurd hvalid (not_le.mpr hlt)

/-- A replaced fact and its replacement are never both current. -/
theorem replaced_never_current (seeds : Seeds) (p : MemoryProjection) (hp : Reached seeds p) :
    Records p.facts p.supersessions ∧
    (∀ (i : Nat) (fact : MemoryFact) prior, p.facts[i]? = some fact → fact.supersedes = some prior →
      (∃ j < i, ∃ replaced : MemoryFact, p.facts[j]? = some replaced ∧ replaced.id = prior) ∧
      ∀ replaced ∈ p.facts, replaced.id = prior → ∀ clock,
        ¬ (factIsActive p fact clock = true ∧ factIsActive p replaced clock = true)) ∧
    ∀ q, ReflTransGen Updates p q → ∀ (prior : FactId) entry,
      p.supersessions[prior]? = some entry → q.supersessions[prior]? = some entry := by
  have hr := Reached.replacing hp
  refine ⟨hr.records, fun i fact prior hi hs => ⟨hr.earlier i fact prior hi hs, ?_⟩, fun q hq prior entry he => ?_⟩
  · intro replaced _ hid clock
    rw [← hid] at hs
    exact hr.not_both_active (List.mem_of_getElem? hi) hs clock
  · induction hq with
    | refl => exact he
    | tail _ hu ih =>
        obtain rfl | ⟨event, change, ha, rfl⟩ := hu.eq_or_applied
        · exact ih
        · exact supersession_applied ha ih

def replacedOnce : List (StoredEvent MemoryEvent) :=
  [Common.stored 0 (Common.event (Common.eventId 0) (Common.ts 1) (.nodeUpserted (Common.node Common.task))),
    Common.stored 1 (Common.event (Common.eventId 1) (Common.ts 1) (.nodeUpserted (Common.node Common.file))),
    Common.stored 2 (Common.event (Common.eventId 2) (Common.ts 20)
      (.factRecorded (Common.fact Common.factOne (Common.ts 10) (Common.ts 20) none))),
    Common.stored 3 (Common.event (Common.eventId 3) (Common.ts 40)
      (.factRecorded (Common.fact Common.factTwo (Common.ts 30) (Common.ts 40) (some Common.factOne))))]

theorem replaced_never_current_once : (applyAll ⟨1, 2⟩ replacedOnce).facts.length = 2 ∧
    ∀ clock, ¬ (factIsActive (applyAll ⟨1, 2⟩ replacedOnce)
        (Common.fact Common.factTwo (Common.ts 30) (Common.ts 40) (some Common.factOne)) clock = true ∧
      factIsActive (applyAll ⟨1, 2⟩ replacedOnce)
        (Common.fact Common.factOne (Common.ts 10) (Common.ts 20) none) clock = true) := by
  have h := (replaced_never_current ⟨1, 2⟩ _ (reached_applyAll ⟨1, 2⟩ replacedOnce)).2.1
  refine ⟨by decide +kernel, ?_⟩
  exact (h 1 _ Common.factOne (by decide +kernel) rfl).2 _ (by decide +kernel) rfl

end WeavatrixMemory.Projection.Replacement
