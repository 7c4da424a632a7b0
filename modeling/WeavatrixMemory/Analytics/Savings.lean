import Mathlib.Data.List.Dedup
import Mathlib.Data.List.Pairwise
import WeavatrixMemory.Analytics.Consolidation

namespace WeavatrixMemory.Analytics.Savings

open Error Identity Domain Sorting Groups GraphProjection Analytics.Model Analytics.Timeline Analytics.Consolidation
open Projection.State Projection.Memory Projection.Invariant

def unkept (actions : List ConsolidationAction) : List FactId :=
  ((actions.flatMap (·.affectedFacts)).filter fun id => ∀ action ∈ actions, action.keep ≠ some id).dedup

structure Proper (action : ConsolidationAction) : Prop where
  nodup : action.affectedFacts.Nodup
  keeps : action.kind ≠ .reviewOrphan → ∃ kept ∈ action.affectedFacts, action.keep = some kept
  orphan : action.kind = .reviewOrphan → action.affectedFacts = [] ∧ action.keep = none

def Repeats (p : MemoryProjection) (clock : ProjectionClock) (key : ChainKey) : Prop :=
  ∃ fact ∈ (view p clock).facts, ∃ other ∈ (view p clock).facts,
    fact.id ≠ other.id ∧ linkOf fact = linkOf other ∧ chainOf fact = key

variable {action : ConsolidationAction} {actions : List ConsolidationAction} {id : FactId}

/-- The facts of the action that it does not keep itself. -/
def released (action : ConsolidationAction) : List FactId :=
  action.affectedFacts.filter fun id => action.keep ≠ some id

theorem Proper.length_released (h : Proper action) : (released action).length = savings action := by
  by_cases horphan : action.kind = .reviewOrphan
  · rw [released, (h.orphan horphan).1, savings, horphan]
    rfl
  · obtain ⟨kept, hkept, hkeep⟩ := h.keeps horphan
    have herase : released action = action.affectedFacts.erase kept := by
      rw [h.nodup.erase_eq_filter, released, hkeep]
      apply List.filter_congr
      intro id _
      rw [Bool.eq_iff_iff, decide_eq_true_iff, bne_iff_ne, ne_eq, Option.some.injEq, eq_comm]
    have hsavings : savings action = action.affectedFacts.length - 1 := by
      rw [savings]
      split
      next heq => exact absurd heq horphan
      next => rfl
    rw [herase, hsavings, List.length_erase_of_mem hkept]

theorem mem_released : id ∈ released action ↔ id ∈ action.affectedFacts ∧ action.keep ≠ some id := by
  simp [released]

theorem mem_unkept : id ∈ unkept actions ↔
    (∃ action ∈ actions, id ∈ action.affectedFacts) ∧ ∀ action ∈ actions, action.keep ≠ some id := by
  simp [unkept]

theorem length_flatMap_released (h : ∀ action ∈ actions, Proper action) :
    (actions.flatMap released).length = (actions.map savings).sum := by
  rw [List.length_flatMap]
  congr 1
  exact List.map_congr_left fun action haction => (h action haction).length_released

theorem length_unkept_le {covering : List ConsolidationAction} (h : ∀ action ∈ covering, Proper action)
    (hsub : ∀ action ∈ covering, action ∈ actions)
    (hcover : ∀ action ∈ actions, ∀ id ∈ action.affectedFacts, ∃ other ∈ covering, id ∈ other.affectedFacts) :
    (unkept actions).length ≤ (covering.map savings).sum := by
  rw [← length_flatMap_released h]
  refine (List.subperm_of_subset (List.nodup_dedup _) fun id hid => ?_).length_le
  obtain ⟨⟨action, haction, hnamed⟩, hunkept⟩ := mem_unkept.mp hid
  obtain ⟨other, ho, hnamed⟩ := hcover action haction id hnamed
  exact List.mem_flatMap.mpr ⟨other, ho, mem_released.mpr ⟨hnamed, hunkept other (hsub other ho)⟩⟩

/-- Where no two actions share a fact, all savings are of unkept facts. -/
theorem savings_le_unkept (h : ∀ action ∈ actions, Proper action)
    (hdisjoint : actions.Pairwise fun left right => left.affectedFacts.Disjoint right.affectedFacts) :
    (actions.map savings).sum ≤ (unkept actions).length := by
  rw [← length_flatMap_released h]
  have hnodup : (actions.flatMap released).Nodup := by
    rw [List.nodup_flatMap]
    refine ⟨fun action haction => (h action haction).nodup.filter _, hdisjoint.imp fun hd => ?_⟩
    intro id hid hid'
    exact hd (mem_released.mp hid).1 (mem_released.mp hid').1
  have hsymm : Std.Symm fun left right : ConsolidationAction => left.affectedFacts.Disjoint right.affectedFacts :=
    ⟨fun _ _ hd => hd.symm⟩
  refine (List.subperm_of_subset hnodup fun id hid => ?_).length_le
  obtain ⟨action, haction, hreleased⟩ := List.mem_flatMap.mp hid
  obtain ⟨hnamed, hkeep⟩ := mem_released.mp hreleased
  refine mem_unkept.mpr ⟨⟨action, haction, hnamed⟩, fun other ho hkept => ?_⟩
  have hother : id ∈ other.affectedFacts := by
    by_cases horphan : other.kind = .reviewOrphan
    · cases ((h other ho).orphan horphan).2.symm.trans hkept
    · obtain ⟨kept, hmem, hother⟩ := (h other ho).keeps horphan
      rw [hkept] at hother
      rwa [Option.some.inj hother]
  by_cases hsame : action = other
  · rw [hsame] at hkeep
    exact hkeep hkept
  · exact hdisjoint.forall haction ho hsame hnamed hother

variable {crate : GraphCrate} {queries : GraphQueries crate} {p : MemoryProjection} {clock : ProjectionClock}
  {graph : crate.Graph} {key : ChainKey} {fact : MemoryFact} {facts : List MemoryFact}

theorem distinct_view (hp : Valid p) : Distinct (view p clock).facts := distinct_filter hp _

theorem mem_chain_of_view (h : fact ∈ (view p clock).facts) : fact ∈ chain p clock.knownAt (chainOf fact) := by
  obtain ⟨hmem, hactive⟩ := List.mem_filter.mp h
  refine mem_chain.mpr ⟨hmem, ?_, rfl⟩
  by_contra hlate
  have hinactive : factIsActive p fact clock = false := if_pos (.inl (not_le.mp hlate))
  rw [hinactive, Bool.and_false] at hactive
  cases hactive

theorem proper_duplicate {key : LinkKey} (hp : Valid p) (h : 2 ≤ (duplicates p clock key).length) :
    Proper (duplicateAction key (duplicates p clock key)) := by
  have hperm := List.mergeSort_perm (duplicates p clock key) fun left right => (strengthOrder left right).isLE
  have hdistinct : ((duplicates p clock key).map MemoryFact.id).Nodup :=
    (List.filter_sublist.map MemoryFact.id).nodup (distinct_view hp)
  refine ⟨(hperm.map MemoryFact.id).nodup_iff.mpr hdistinct, fun _ => ?_, fun hkind => by cases hkind⟩
  cases hsorted : (duplicates p clock key).mergeSort fun left right => (strengthOrder left right).isLE with
  | nil =>
      rw [hsorted] at hperm
      rw [← hperm.length_eq] at h
      cases h
  | cons kept rest =>
      have hmem : kept ∈ duplicates p clock key := by
        rw [← hperm.mem_iff, hsorted]
        exact List.mem_cons_self
      refine ⟨kept.id, mem_duplicateAction.mpr ⟨kept, hmem, rfl⟩, ?_⟩
      rw [duplicateAction, hsorted]
      rfl

theorem proper_checkpoint (hp : Valid p) (h : Long p clock key) : Proper (checkpoint p clock key) := by
  obtain ⟨last, hlast⟩ := exists_last h.chain_ne_nil
  have hmem : last ∈ chain p clock.knownAt key := mem_timeline.mp (List.mem_of_getLast? hlast)
  exact ⟨(distinct_chain hp clock.knownAt key).timeline,
    fun _ => ⟨last.id, mem_revisionAction.mpr ⟨last, hmem, rfl⟩, congrArg (Option.map MemoryFact.id) hlast⟩,
    fun hkind => by cases hkind⟩

theorem proper_of_mem (hp : Valid p) (h : action ∈ actionsOf queries p clock graph) : Proper action := by
  obtain h | h := List.mem_append.mp h
  · obtain h | h := List.mem_append.mp h
    · obtain ⟨key, hlength, rfl⟩ := mem_duplicateActions.mp h
      exact proper_duplicate hp hlength
    · obtain ⟨id, rfl⟩ := orphan_of_mem h
      exact ⟨List.nodup_nil, fun hkind => absurd rfl hkind, fun _ => ⟨rfl, rfl⟩⟩
  · obtain ⟨key, hlong, rfl⟩ := mem_revisionActions.mp h
    exact proper_checkpoint hp hlong

def Apart (left right : ConsolidationAction) : Prop :=
  left.kind = right.kind → left.affectedFacts.Disjoint right.affectedFacts

theorem pairwise_groups_apart {κ : Type} [Ord κ] [Std.TransOrd κ] [Std.LawfulEqOrd κ] [DecidableEq κ]
    {groupOf : MemoryFact → κ} (h : Distinct facts) {make : κ × List MemoryFact → Option ConsolidationAction}
    (hmake : ∀ group action, make group = some action → ∀ id ∈ action.affectedFacts, ∃ fact ∈ group.2, fact.id = id) :
    ((groups groupOf facts).toList.filterMap make).Pairwise Apart := by
  rw [List.pairwise_filterMap]
  refine pairwise_groups.imp_of_mem fun {group other} hgroup ho hne left hleft right hright _ id hid hid' => ?_
  obtain ⟨fact, hfact, rfl⟩ := hmake group left hleft id hid
  obtain ⟨fact', hfact', heq⟩ := hmake other right hright _ hid'
  rw [(mem_groups.mp hgroup).2] at hfact
  rw [(mem_groups.mp ho).2] at hfact'
  obtain ⟨hmem, hkey⟩ := List.mem_filter.mp hfact
  obtain ⟨hmem', hkey'⟩ := List.mem_filter.mp hfact'
  obtain rfl := h.eq hmem' hmem heq
  exact hne ((of_decide_eq_true hkey).symm.trans (of_decide_eq_true hkey'))

theorem pairwise_apart (hp : Valid p) : (actionsOf queries p clock graph).Pairwise Apart := by
  have hduplicates : (duplicateActions (view p clock).facts).Pairwise Apart := by
    rw [duplicateActions]
    apply pairwise_groups_apart (distinct_view hp)
    intro group action hmake id hid
    obtain ⟨-, hmake⟩ := Option.ite_none_left_eq_some.mp hmake
    rw [← Option.some.inj hmake] at hid
    exact mem_duplicateAction.mp hid
  have horphans : (orphanActions queries graph).Pairwise Apart := by
    refine List.pairwise_of_forall_mem_list fun left hleft _ _ _ => ?_
    obtain ⟨id, rfl⟩ := orphan_of_mem hleft
    exact List.disjoint_nil_left _
  have hrevisions : (revisionActions p clock).Pairwise Apart := by
    rw [revisionActions, knownFacts]
    apply pairwise_groups_apart (distinct_filter hp _)
    intro group action hmake id hid
    obtain ⟨-, hmake⟩ := Option.ite_none_right_eq_some.mp hmake
    rw [← Option.some.inj hmake] at hid
    exact mem_revisionAction.mp hid
  refine List.pairwise_append.mpr ⟨List.pairwise_append.mpr ⟨hduplicates, horphans, ?_⟩, hrevisions, ?_⟩
  · intro left hleft right hright hkind
    obtain ⟨key, -, rfl⟩ := mem_duplicateActions.mp hleft
    obtain ⟨id, rfl⟩ := orphan_of_mem hright
    cases hkind
  · intro left hleft right hright hkind
    obtain ⟨key, -, rfl⟩ := mem_revisionActions.mp hright
    obtain hleft | hleft := List.mem_append.mp hleft
    · obtain ⟨key, -, rfl⟩ := mem_duplicateActions.mp hleft
      cases hkind
    · obtain ⟨id, rfl⟩ := orphan_of_mem hleft
      cases hkind

theorem two_le_of_repeats {other : MemoryFact} (hf : fact ∈ (view p clock).facts) (ho : other ∈ (view p clock).facts)
    (hne : fact.id ≠ other.id) (hlink : linkOf fact = linkOf other) :
    2 ≤ (duplicates p clock (linkOf fact)).length := by
  have hnodup : [fact, other].Nodup := by
    rw [List.nodup_cons, List.mem_singleton]
    exact ⟨fun heq => hne (congrArg MemoryFact.id heq), List.nodup_singleton _⟩
  have hsub : [fact, other] ⊆ duplicates p clock (linkOf fact) := by
    intro x hx
    obtain rfl | hx := List.mem_cons.mp hx
    · exact List.mem_filter.mpr ⟨hf, decide_eq_true rfl⟩
    · obtain rfl := List.mem_singleton.mp hx
      exact List.mem_filter.mpr ⟨ho, decide_eq_true hlink.symm⟩
  exact (List.subperm_of_subset hnodup hsub).length_le

def keyOf (link : LinkKey) : ChainKey := ⟨link.source, link.relation⟩

theorem mem_duplicates {link : LinkKey} :
    fact ∈ duplicates p clock link ↔ fact ∈ (view p clock).facts ∧ linkOf fact = link := by
  rw [duplicates, List.mem_filter, decide_eq_true_iff]

theorem repeats_of_two_le (hp : Valid p) {link : LinkKey} (h : 2 ≤ (duplicates p clock link).length) :
    Repeats p clock (keyOf link) := by
  have hdistinct : ((duplicates p clock link).map MemoryFact.id).Nodup :=
    (List.filter_sublist.map MemoryFact.id).nodup (distinct_view hp)
  have hmem {fact : MemoryFact} (hf : fact ∈ duplicates p clock link) := mem_duplicates.mp hf
  obtain ⟨fact, other, rest, hlist⟩ : ∃ fact other rest, duplicates p clock link = fact :: other :: rest := by
    cases hlist : duplicates p clock link with
    | nil => simp [hlist] at h
    | cons fact rest =>
        cases rest with
        | nil => simp [hlist] at h
        | cons other rest => exact ⟨fact, other, rest, rfl⟩
  rw [hlist] at hdistinct hmem
  obtain ⟨hf, hlink⟩ := hmem List.mem_cons_self
  obtain ⟨ho, hother⟩ := hmem (List.mem_cons_of_mem _ List.mem_cons_self)
  refine ⟨fact, hf, other, ho, fun heq => ?_, hlink.trans hother.symm, ?_⟩
  · exact (List.nodup_cons.mp hdistinct).1 (heq ▸ List.mem_cons_self)
  · rw [← hlink]
    rfl

theorem mem_checkpoint_of_duplicate {link : LinkKey}
    (hid : id ∈ (duplicateAction link (duplicates p clock link)).affectedFacts) :
    id ∈ (checkpoint p clock (keyOf link)).affectedFacts := by
  obtain ⟨fact, hfact, rfl⟩ := mem_duplicateAction.mp hid
  obtain ⟨hmem, rfl⟩ := mem_duplicates.mp hfact
  exact mem_revisionAction.mpr ⟨fact, mem_chain_of_view hmem, rfl⟩

variable {maxActions : Nat} {plan : ConsolidationPlan}

/-- With two actions about the same facts, the savings are counted twice. -/
theorem unkept_lt_savings (hp : Valid p) (h : consolidationPlan queries p clock maxActions = .ok plan)
    (hgraph : projectGraph crate (view p clock) = .ok graph) (hlong : Long p clock key)
    (hroom : position queries p clock graph key < maxActions) (hrepeats : Repeats p clock key) :
    (unkept plan.actions).length < plan.projectedSavings := by
  obtain ⟨fact, hf, other, ho, hne, hlink, rfl⟩ := hrepeats
  have htwo := two_le_of_repeats hf ho hne hlink
  have hkept := (checkpoint_mem_iff hp h hgraph hlong).mpr hroom
  obtain ⟨hactions, hsavings⟩ := consolidationPlan_eq_ok h hgraph
  have hmem : duplicateAction (linkOf fact) (duplicates p clock (linkOf fact)) ∈ plan.actions := by
    rw [hactions] at hkept ⊢
    refine mem_take_sort_of_lt ?_ (actionOrder_of_rank rank_duplicate_lt) hkept
    exact List.mem_append_left _ (List.mem_append_left _ (mem_duplicateActions.mpr ⟨_, htwo, rfl⟩))
  have hproper : ∀ action ∈ plan.actions, Proper action :=
    fun action haction => proper_of_mem hp (mem_of_mem_plan h hgraph haction)
  have hle := @length_unkept_le plan.actions
    (plan.actions.erase (duplicateAction (linkOf fact) (duplicates p clock (linkOf fact))))
    (fun action haction => hproper action (List.mem_of_mem_erase haction))
    (fun action haction => List.mem_of_mem_erase haction) fun action haction id hid => by
      by_cases hsame : action = duplicateAction (linkOf fact) (duplicates p clock (linkOf fact))
      · rw [hsame] at hid
        refine ⟨_, (List.mem_erase_of_ne fun heq => ?_).mpr hkept, mem_checkpoint_of_duplicate hid⟩
        cases congrArg ConsolidationAction.kind heq
      · exact ⟨action, (List.mem_erase_of_ne hsame).mpr haction, hid⟩
  have hperm := ((List.perm_cons_erase hmem).map savings).sum_nat
  have hone : 1 ≤ savings (duplicateAction (linkOf fact) (duplicates p clock (linkOf fact))) := by
    have hlength : (duplicateAction (linkOf fact) (duplicates p clock (linkOf fact))).affectedFacts.length =
        (duplicates p clock (linkOf fact)).length := by
      rw [duplicateAction, List.length_map, List.length_mergeSort]
    rw [savings, hlength]
    exact Nat.le_sub_of_add_le htwo
  rw [List.map_cons, List.sum_cons] at hperm
  omega

theorem disjoint_checkpoint (hp : Valid p) {link : LinkKey} (htwo : 2 ≤ (duplicates p clock link).length)
    (hrepeats : ¬ Repeats p clock key) :
    (duplicateAction link (duplicates p clock link)).affectedFacts.Disjoint (checkpoint p clock key).affectedFacts := by
  intro id hid hid'
  have hkey := chain_key_eq hp hid' (mem_checkpoint_of_duplicate hid)
  rw [hkey] at hrepeats
  exact hrepeats (repeats_of_two_le hp htwo)

theorem disjoint_of_apart (hp : Valid p) {left right : ConsolidationAction}
    (hleft : left ∈ actionsOf queries p clock graph) (hright : right ∈ actionsOf queries p clock graph)
    (hrepeats : ∀ key, Long p clock key → checkpoint p clock key = left ∨ checkpoint p clock key = right →
      ¬ Repeats p clock key) (hapart : Apart left right) : left.affectedFacts.Disjoint right.affectedFacts := by
  rw [actionsOf, List.mem_append, List.mem_append] at hleft hright
  obtain (hleft | hleft) | hleft := hleft
  · obtain ⟨link, htwo, rfl⟩ := mem_duplicateActions.mp hleft
    obtain (hright | hright) | hright := hright
    · obtain ⟨other, -, rfl⟩ := mem_duplicateActions.mp hright
      exact hapart rfl
    · obtain ⟨id, rfl⟩ := orphan_of_mem hright
      exact List.disjoint_nil_right _
    · obtain ⟨key, hlong, rfl⟩ := mem_revisionActions.mp hright
      exact disjoint_checkpoint hp htwo (hrepeats key hlong (.inr rfl))
  · obtain ⟨id, rfl⟩ := orphan_of_mem hleft
    exact List.disjoint_nil_left _
  · obtain ⟨key, hlong, rfl⟩ := mem_revisionActions.mp hleft
    obtain (hright | hright) | hright := hright
    · obtain ⟨link, htwo, rfl⟩ := mem_duplicateActions.mp hright
      exact (disjoint_checkpoint hp htwo (hrepeats key hlong (.inl rfl))).symm
    · obtain ⟨id, rfl⟩ := orphan_of_mem hright
      exact List.disjoint_nil_right _
    · obtain ⟨other, -, rfl⟩ := mem_revisionActions.mp hright
      exact hapart rfl

theorem savings_achievable (hp : Valid p) (h : consolidationPlan queries p clock maxActions = .ok plan)
    (hgraph : projectGraph crate (view p clock) = .ok graph) :
    plan.projectedSavings ≤ (unkept plan.actions).length ↔
      ∀ key, Long p clock key → position queries p clock graph key < maxActions → ¬ Repeats p clock key := by
  constructor
  · intro hle key hlong hroom hrepeats
    exact absurd hle (not_le.mpr (unkept_lt_savings hp h hgraph hlong hroom hrepeats))
  · intro hrepeats
    obtain ⟨hactions, hsavings⟩ := consolidationPlan_eq_ok h hgraph
    have hapart : plan.actions.Pairwise Apart := by
      rw [hactions]
      refine List.Pairwise.sublist (List.take_sublist _ _) ?_
      rw [(List.mergeSort_perm _ _).pairwise_iff fun hapart hkind => (hapart hkind.symm).symm]
      exact pairwise_apart hp
    rw [hsavings]
    refine savings_le_unkept (fun action haction => proper_of_mem hp (mem_of_mem_plan h hgraph haction)) ?_
    refine hapart.imp_of_mem fun {left right} hleft hright hapart => ?_
    refine disjoint_of_apart hp (mem_of_mem_plan h hgraph hleft) (mem_of_mem_plan h hgraph hright)
      (fun key hlong hkey => hrepeats key hlong ((checkpoint_mem_iff hp h hgraph hlong).mp ?_)) hapart
    obtain rfl | rfl := hkey
    · exact hleft
    · exact hright

theorem savings_achievable_in_turn : ∃ p graph plan, Example inTurn p graph ∧
    consolidationPlan listQueries p ⟨Common.ts 60, Common.ts 60⟩ 100 = .ok plan ∧
    plan.projectedSavings ≤ (unkept plan.actions).length := by
  obtain ⟨p, graph, hexample⟩ := exists_inTurn
  obtain ⟨plan, hplan⟩ := @exists_plan _ listQueries _ _ _ 100 hexample.projected (by decide)
  refine ⟨p, graph, plan, hexample, hplan,
    (savings_achievable hexample.valid hplan hexample.projected).mpr fun key _ _ hrepeats => ?_⟩
  obtain ⟨fact, hf, other, ho, hne, -⟩ := hrepeats
  have hactive : (view p ⟨Common.ts 60, Common.ts 60⟩).facts = inTurn.drop 3 := hexample.view_facts (by decide +kernel)
  have hlast : inTurn.drop 3 = [Common.fact factFour (Common.ts 10) (Common.ts 50) (some factThree)] := rfl
  rw [hactive, hlast, List.mem_singleton] at hf ho
  exact hne (congrArg MemoryFact.id (hf.trans ho.symm))

def factFive : FactId := ⟨⟨"fact:5", by decide⟩, by decide⟩

/-- The corrections in turn, and another fact that says what the last of them says. -/
def repeated : List MemoryFact := inTurn ++ [Common.fact factFive (Common.ts 10) (Common.ts 60) none]

/-- The superseded fact of the checkpoint that is also a duplicate is counted twice. -/
theorem savings_counted_twice : ∃ p graph maxActions plan, Example repeated p graph ∧
    consolidationPlan listQueries p ⟨Common.ts 60, Common.ts 60⟩ maxActions = .ok plan ∧
    ¬ plan.projectedSavings ≤ (unkept plan.actions).length := by
  obtain ⟨p, graph, hexample⟩ := @exists_example repeated (by decide +kernel) (by decide +kernel)
  obtain ⟨plan, hplan⟩ := @exists_plan _ listQueries _ _ _
    (position listQueries p ⟨Common.ts 60, Common.ts 60⟩ graph taskAffects + 1) hexample.projected (Nat.succ_ne_zero _)
  refine ⟨p, graph, _, plan, hexample, hplan, not_le.mpr ?_⟩
  refine unkept_lt_savings hexample.valid hplan hexample.projected ?_ (Nat.lt_succ_self _) ?_
  · rw [Long, chain, knownFacts, hexample.facts]
    decide +kernel
  · have hactive : (view p ⟨Common.ts 60, Common.ts 60⟩).facts = repeated.drop 3 :=
      hexample.view_facts (by decide +kernel)
    rw [Repeats, hactive]
    decide +kernel

end WeavatrixMemory.Analytics.Savings
