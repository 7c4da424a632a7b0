import WeavatrixMemory.Context.Bundles
import WeavatrixMemory.Library.Sorting

namespace WeavatrixMemory.Context.Receipt

open Error Identity Domain GraphProjection Projection.State Projection.Memory Projection.Invariant
open Snapshot.Routes Compiler Neighborhood Bounds Budget Bundles Budgets Outcome Sorting

/-- What a view costs, each node and each fact once. -/
def viewTokens (estimator : TokenEstimator) (view : MemoryView) : Nat :=
  (view.nodes.map (nodeTokens estimator)).sum + (view.facts.map (factTokens estimator)).sum

def extended (s : Selection) (fact : MemoryFact) : Selection :=
  { s with
    selected := (s.selected.insert fact.source).insert fact.target
    facts := s.facts ++ [fact] }

/-- The receipt tells what the view costs and how many facts were looked at, and a fact was left out of
the view only if the view at its turn had no room for it. -/
structure Exact {Graph : Type} (estimator : TokenEstimator) (p : MemoryProjection) (request : ContextRequest)
    (bundle : ContextBundle Graph) : Prop where
  estimated : bundle.receipt.estimatedTokens = viewTokens estimator bundle.view
  counted : bundle.receipt.selectedFacts + bundle.receipt.omittedByBudget = bundle.receipt.examinedFacts
  omitted : ∀ found candidates, neighborhood p request = .ok found →
    rankCandidates found.distances (found.facts.toList.map (·.2)) = .ok candidates →
    ∀ before fact after, candidates = before ++ fact :: after → fact ∉ bundle.view.facts →
      ∀ s, before.foldlM (selectFact estimator request found.nodes) (seeded estimator request found.nodes) = .ok s →
        request.tokenBudget < viewTokens estimator (viewOf found.nodes (extended s fact))

/-- Where each node is paid for once, no fact from an entity to itself finds room at its turn while the
entity is not selected. -/
def NoNewLoopFits (estimator : TokenEstimator) (p : MemoryProjection) (request : ContextRequest) : Prop :=
  ∀ found candidates, neighborhood p request = .ok found →
    rankCandidates found.distances (found.facts.toList.map (·.2)) = .ok candidates →
    ∀ before fact after, candidates = before ++ fact :: after → fact.source = fact.target →
      fact.source ∉ (fill (pricesOf estimator found.nodes) request.tokenBudget ⟨request.seeds.toFinset, []⟩
        before).resources →
      ¬ Fits (pricesOf estimator found.nodes) request.tokenBudget
        (fill (pricesOf estimator found.nodes) request.tokenBudget ⟨request.seeds.toFinset, []⟩ before) fact

variable {estimator : TokenEstimator} {p : MemoryProjection} {request : ContextRequest}
  {nodes : BTreeMap EntityId MemoryNode} {s : Selection} {fact : MemoryFact}

def turn (estimator : TokenEstimator) (request : ContextRequest) (nodes : BTreeMap EntityId MemoryNode) (s : Selection)
    (fact : MemoryFact) : Selection :=
  if request.tokenBudget < s.used + charge estimator nodes s fact then skipped s else taken estimator nodes s fact

theorem foldlM_selectFact {candidates : List MemoryFact} (h : ∀ fact ∈ candidates, Found nodes fact) (s : Selection) :
    candidates.foldlM (selectFact estimator request nodes) s =
      .ok (candidates.foldl (turn estimator request nodes) s) := by
  induction candidates generalizing s with
  | nil => rfl
  | cons fact rest ih =>
      obtain ⟨hfact, hrest⟩ := List.forall_mem_cons.mp h
      rw [List.foldlM_cons, selectFact_eq hfact, ok_bind, ih hrest]
      rfl

def Matches (estimator : TokenEstimator) (nodes : BTreeMap EntityId MemoryNode) (s : Selection)
    (basket : Basket MemoryFact EntityId) : Prop :=
  basketOf s = basket ∧ s.used = worth (pricesOf estimator nodes) basket

theorem Matches.turn {basket : Basket MemoryFact EntityId} (h : Matches estimator nodes s basket)
    (hloop : ¬ (NewLoop s fact ∧ Fits (pricesOf estimator nodes) request.tokenBudget basket fact)) :
    Matches estimator nodes (Receipt.turn estimator request nodes s fact)
      (take (pricesOf estimator nodes) request.tokenBudget basket fact) := by
  obtain ⟨rfl, hused⟩ := h
  rw [Receipt.turn, take]
  have hcharge := @charge_eq estimator nodes s fact
  by_cases hfits : Fits (pricesOf estimator nodes) request.tokenBudget (basketOf s) fact
  · rw [if_neg fun h => hloop ⟨h, hfits⟩, Nat.add_zero] at hcharge
    have hroom : ¬ request.tokenBudget < s.used + charge estimator nodes s fact := by
      rw [hused, hcharge]
      exact Nat.not_lt.mpr hfits
    rw [if_pos hfits, if_neg hroom]
    refine ⟨basketOf_taken, ?_⟩
    rw [worth_add, ← hcharge, ← hused]
    rfl
  · have hfull : request.tokenBudget < s.used + charge estimator nodes s fact := by
      rw [Fits, Nat.not_le] at hfits
      rw [hused]
      exact hfits.trans_le (Nat.add_le_add_left extra_le_charge _)
    rw [if_neg hfits, if_pos hfull]
    exact ⟨rfl, hused⟩

theorem Matches.run {basket : Basket MemoryFact EntityId} (h : Matches estimator nodes s basket)
    (candidates : List MemoryFact)
    (hloop : ∀ before fact after, candidates = before ++ fact :: after → fact.source = fact.target →
      fact.source ∉ (fill (pricesOf estimator nodes) request.tokenBudget basket before).resources →
      ¬ Fits (pricesOf estimator nodes) request.tokenBudget
        (fill (pricesOf estimator nodes) request.tokenBudget basket before) fact) :
    Matches estimator nodes (candidates.foldl (Receipt.turn estimator request nodes) s)
      (fill (pricesOf estimator nodes) request.tokenBudget basket candidates) := by
  induction candidates generalizing s basket with
  | nil => exact h
  | cons fact rest ih =>
      have hfirst : ¬ (NewLoop s fact ∧ Fits (pricesOf estimator nodes) request.tokenBudget basket fact) := by
        intro hboth
        obtain ⟨⟨hends, hout⟩, hfits⟩ := hboth
        refine hloop [] fact rest rfl hends ?_ hfits
        change fact.source ∉ basket.resources
        rw [← h.1, mem_resources]
        exact hout
      exact ih (h.turn hfirst) fun before other after hsplit => hloop (fact :: before) other after (congrArg _ hsplit)

theorem run_keeps {good : Selection → Prop} (hskip : ∀ s, good s → good (skipped s))
    (htake : ∀ s fact, good s → good (taken estimator nodes s fact)) (h : good s) (candidates : List MemoryFact) :
    good (candidates.foldl (turn estimator request nodes) s) := by
  induction candidates generalizing s with
  | nil => exact h
  | cons fact rest ih =>
      refine ih ?_
      rw [turn]
      split
      next => exact hskip s h
      next => exact htake s fact h

def Overcharged (estimator : TokenEstimator) (nodes : BTreeMap EntityId MemoryNode) (s : Selection) : Prop :=
  worth (pricesOf estimator nodes) (basketOf s) < s.used

theorem Overcharged.run (h : Overcharged estimator nodes s) (candidates : List MemoryFact) :
    Overcharged estimator nodes (candidates.foldl (turn estimator request nodes) s) := by
  refine run_keeps (fun s h => h) (fun s fact h => ?_) h candidates
  rw [Overcharged, basketOf_taken, worth_add]
  exact Nat.add_lt_add_of_lt_of_le h extra_le_charge

theorem mem_facts_run (candidates : List MemoryFact) {other : MemoryFact}
    (h : other ∈ (candidates.foldl (turn estimator request nodes) s).facts) : other ∈ s.facts ∨ other ∈ candidates := by
  induction candidates generalizing s with
  | nil => exact .inl h
  | cons fact rest ih =>
      obtain hin | hin := ih h
      · rw [turn] at hin
        split at hin
        next => exact .inl hin
        next =>
          obtain hin | hin := List.mem_append.mp hin
          · exact .inl hin
          · exact .inr (List.mem_singleton.mp hin ▸ List.mem_cons_self)
      · exact .inr (List.mem_cons_of_mem _ hin)

theorem facts_run (candidates : List MemoryFact) {other : MemoryFact} (h : other ∈ s.facts) :
    other ∈ (candidates.foldl (turn estimator request nodes) s).facts :=
  @run_keeps _ _ _ s (fun s => other ∈ s.facts) (fun _ h => h) (fun _ _ h => List.mem_append_left _ h) h candidates

theorem price_pos (hfound : nodes.contains fact.source = true) : 0 < priceOf estimator nodes fact.source := by
  obtain ⟨node, hn, -⟩ := indexMap_eq hfound
  rw [priceOf, hn]
  exact Nat.add_pos_right _ (by decide)

theorem overcharged_of_newLoop (hfound : Found nodes fact)
    (hworth : s.used = worth (pricesOf estimator nodes) (basketOf s)) (hloop : NewLoop s fact) :
    Overcharged estimator nodes (taken estimator nodes s fact) := by
  rw [Overcharged, basketOf_taken, worth_add, taken]
  dsimp only
  rw [charge_eq, if_pos hloop, hworth, ← Nat.add_assoc]
  exact Nat.lt_add_of_pos_right (price_pos hfound.1)

theorem exists_first {α : Type} {at_ : List α → α → Prop} {xs : List α}
    (h : ∃ before x after, xs = before ++ x :: after ∧ at_ before x) :
    ∃ before x after, xs = before ++ x :: after ∧ at_ before x ∧
      ∀ before' x' after', before = before' ++ x' :: after' → ¬ at_ before' x' := by
  obtain ⟨before, x, after, hsplit, hat⟩ := h
  induction hn : before.length using Nat.strong_induction_on generalizing before x after with
  | _ n ih =>
      by_cases hfirst : ∀ before' x' after', before = before' ++ x' :: after' → ¬ at_ before' x'
      · exact ⟨before, x, after, hsplit, hat, hfirst⟩
      · simp only [not_forall, not_not] at hfirst
        obtain ⟨before', x', after', hbefore, hat'⟩ := hfirst
        refine ih before'.length ?_ before' x' (after' ++ x :: after) ?_ hat' rfl
        · rw [← hn, hbefore, List.length_append, List.length_cons]
          omega
        · rw [hsplit, hbefore, List.append_assoc, List.cons_append]

theorem viewTokens_eq (hkeys : ∀ (id : EntityId) node, nodes[id]? = some node → node.id = id)
    (hfound : ∀ id ∈ s.selected, nodes.contains id = true) :
    viewTokens estimator (viewOf nodes s) = worth (pricesOf estimator nodes) (basketOf s) :=
  (worth_eq hkeys hfound).symm

theorem mem_extended {id : EntityId} :
    id ∈ (extended s fact).selected ↔ (id = fact.source ∨ id = fact.target) ∨ id ∈ s.selected := by
  rw [extended, mem_insert, mem_insert, ← or_assoc, or_comm (a := id = fact.target)]

theorem basketOf_extended : basketOf (extended s fact) = add (pricesOf estimator nodes) (basketOf s) fact := by
  have hresources : (basketOf (extended s fact)).resources = (basketOf s).resources ∪ {fact.source, fact.target} := by
    ext id
    rw [mem_resources, mem_extended, Finset.mem_union, mem_resources, Finset.mem_insert, Finset.mem_singleton, or_comm]
  rw [add, pricesOf, ← hresources]
  rfl

theorem viewTokens_extended (hkeys : ∀ (id : EntityId) node, nodes[id]? = some node → node.id = id)
    (hselected : ∀ id ∈ s.selected, nodes.contains id = true) (hfound : Found nodes fact) :
    viewTokens estimator (viewOf nodes (extended s fact)) =
      worth (pricesOf estimator nodes) (basketOf s) + extra (pricesOf estimator nodes) (basketOf s) fact := by
  rw [viewTokens_eq hkeys, basketOf_extended, worth_add]
  intro id hid
  obtain (rfl | rfl) | hid := mem_extended.mp hid
  · exact hfound.1
  · exact hfound.2
  · exact hselected id hid

theorem basketOf_seeded : basketOf (seeded estimator request nodes) = ⟨request.seeds.toFinset, []⟩ := by
  have hresources : (basketOf (seeded estimator request nodes)).resources = request.seeds.toFinset := by
    ext id
    rw [mem_resources, mem_seeded, List.mem_toFinset]
  rw [← hresources]
  rfl

theorem matches_seeded : Matches estimator nodes (seeded estimator request nodes) ⟨request.seeds.toFinset, []⟩ := by
  refine ⟨basketOf_seeded, ?_⟩
  rw [← @basketOf_seeded estimator request nodes, worth_seeded]
  rfl

def selectedAfter (estimator : TokenEstimator) (request : ContextRequest) (nodes : BTreeMap EntityId MemoryNode)
    (candidates : List MemoryFact) : Selection :=
  candidates.foldl (turn estimator request nodes) (seeded estimator request nodes)

variable {candidates : List MemoryFact}

theorem selectedAfter_spends (h : Prepared request nodes candidates)
    (hfits : ¬ request.tokenBudget < seedCost estimator request nodes) {before after : List MemoryFact}
    (hsplit : candidates = before ++ after) :
    Spends estimator request nodes request.seeds before (selectedAfter estimator request nodes before) := by
  have hfound : ∀ fact ∈ before, Found nodes fact := fun fact hf =>
    h.found fact (hsplit ▸ List.mem_append_left _ hf)
  obtain ⟨t, hrun, ht⟩ := (spends_seeded h hfits).run before hfound
  rw [foldlM_selectFact hfound, Except.ok.injEq] at hrun
  rw [selectedAfter, hrun]
  exact ht

theorem selectedAfter_split (before after : List MemoryFact) (fact : MemoryFact) :
    selectedAfter estimator request nodes (before ++ fact :: after) =
      after.foldl (turn estimator request nodes) (turn estimator request nodes
        (selectedAfter estimator request nodes before) fact) := by
  rw [selectedAfter, List.foldl_append, List.foldl_cons]
  rfl

theorem not_mem_split (h : Prepared request nodes candidates) {before after : List MemoryFact}
    (hsplit : candidates = before ++ fact :: after) : fact ∉ before ∧ fact ∉ after := by
  have hnodup := h.ids
  rw [hsplit, List.map_append, List.map_cons, List.nodup_append, List.nodup_cons] at hnodup
  obtain ⟨-, ⟨hafter, -⟩, hcross⟩ := hnodup
  exact ⟨fun hin => hcross _ (List.mem_map_of_mem hin) _ List.mem_cons_self rfl,
    fun hin => hafter (List.mem_map_of_mem hin)⟩

/-- A new loop that fits comes out wrong: its node is paid for twice, or it is left out. -/
theorem newLoop_wrong (h : Prepared request nodes candidates) {before after : List MemoryFact}
    (hsplit : candidates = before ++ fact :: after)
    (hmatches : Matches estimator nodes (selectedAfter estimator request nodes before)
      (fill (pricesOf estimator nodes) request.tokenBudget ⟨request.seeds.toFinset, []⟩ before))
    (hloop : NewLoop (selectedAfter estimator request nodes before) fact) :
    Overcharged estimator nodes (selectedAfter estimator request nodes candidates) ∨
      fact ∉ (selectedAfter estimator request nodes candidates).facts := by
  have hfact : Found nodes fact := h.found fact (hsplit ▸ List.mem_append_right _ List.mem_cons_self)
  obtain ⟨hbefore, hafter⟩ := not_mem_split h hsplit
  rw [hsplit, selectedAfter_split]
  rw [turn]
  split
  next =>
    right
    intro hin
    obtain hin | hin := mem_facts_run after hin
    · obtain hin | hin := mem_facts_run before hin
      · exact List.not_mem_nil hin
      · exact hbefore hin
    · exact hafter hin
  next =>
    left
    refine (overcharged_of_newLoop hfact ?_ hloop).run after
    rw [hmatches.2, hmatches.1]

variable {Graph : Type} {bundle : ContextBundle Graph} {found : Compiler.Neighborhood}

structure Compiled (estimator : TokenEstimator) (p : MemoryProjection) (request : ContextRequest)
    (found : Compiler.Neighborhood) (candidates : List MemoryFact) (bundle : ContextBundle Graph) : Prop where
  neighborhood_eq : neighborhood p request = .ok found
  rank_eq : rankCandidates found.distances (found.facts.toList.map (·.2)) = .ok candidates
  prepared : Prepared request found.nodes candidates
  seedsFit : ¬ request.tokenBudget < seedCost estimator request found.nodes
  view_eq : bundle.view = viewOf found.nodes (selectedAfter estimator request found.nodes candidates)
  receipt_eq : bundle.receipt =
    receiptOf estimator p request found candidates (selectedAfter estimator request found.nodes candidates)

namespace Compiled

theorem spends (h : Compiled estimator p request found candidates bundle) {before after : List MemoryFact}
    (hsplit : candidates = before ++ after) :
    Spends estimator request found.nodes request.seeds before (selectedAfter estimator request found.nodes before) :=
  selectedAfter_spends h.prepared h.seedsFit hsplit

theorem spends_all (h : Compiled estimator p request found candidates bundle) : Spends estimator request found.nodes
    request.seeds candidates (selectedAfter estimator request found.nodes candidates) :=
  h.spends (List.append_nil candidates).symm

theorem viewTokens_view (h : Compiled estimator p request found candidates bundle) : viewTokens estimator bundle.view =
    worth (pricesOf estimator found.nodes) (basketOf (selectedAfter estimator request found.nodes candidates)) := by
  rw [h.view_eq]
  exact viewTokens_eq h.prepared.keys h.spends_all.found

theorem run_eq (h : Compiled estimator p request found candidates bundle) {before after : List MemoryFact}
    (hsplit : candidates = before ++ after) :
    before.foldlM (selectFact estimator request found.nodes) (seeded estimator request found.nodes) =
      .ok (selectedAfter estimator request found.nodes before) :=
  foldlM_selectFact (fun fact hf => h.prepared.found fact (hsplit ▸ List.mem_append_left _ hf)) _

theorem fact_found (h : Compiled estimator p request found candidates bundle) {before after : List MemoryFact}
    (hsplit : candidates = before ++ fact :: after) : Found found.nodes fact :=
  h.prepared.found fact (hsplit ▸ List.mem_append_right _ List.mem_cons_self)

theorem viewTokens_turn (h : Compiled estimator p request found candidates bundle) {before after : List MemoryFact}
    (hsplit : candidates = before ++ fact :: after) :
    viewTokens estimator (viewOf found.nodes (extended (selectedAfter estimator request found.nodes before) fact)) =
      worth (pricesOf estimator found.nodes) (basketOf (selectedAfter estimator request found.nodes before)) +
        extra (pricesOf estimator found.nodes) (basketOf (selectedAfter estimator request found.nodes before)) fact :=
  viewTokens_extended h.prepared.keys (h.spends hsplit).found (h.fact_found hsplit)

theorem no_newLoop_of_exact (h : Compiled estimator p request found candidates bundle)
    (hexact : Exact estimator p request bundle) : NoNewLoopFits estimator p request := by
  intro found' candidates' hfound hrank before fact after hsplit hends hout hfits
  obtain rfl := Except.ok.inj (h.neighborhood_eq.symm.trans hfound)
  obtain rfl := Except.ok.inj (h.rank_eq.symm.trans hrank)
  -- Up to the first such loop the selection goes as it should.
  obtain ⟨before, fact, after, hsplit, ⟨hends, hout, hfits⟩, hfirst⟩ := @exists_first MemoryFact
    (fun before fact => fact.source = fact.target ∧
      fact.source ∉ (fill (pricesOf estimator found.nodes) request.tokenBudget ⟨request.seeds.toFinset, []⟩
        before).resources ∧
      Fits (pricesOf estimator found.nodes) request.tokenBudget
        (fill (pricesOf estimator found.nodes) request.tokenBudget ⟨request.seeds.toFinset, []⟩ before) fact)
    candidates ⟨before, fact, after, hsplit, hends, hout, hfits⟩
  have hmatches := (@matches_seeded estimator request found.nodes).run before fun before' fact' after' hs he ho hf =>
    hfirst before' fact' after' hs ⟨he, ho, hf⟩
  have hloop : NewLoop (selectedAfter estimator request found.nodes before) fact := by
    refine ⟨hends, fun hin => hout ?_⟩
    rw [← hmatches.1, mem_resources]
    exact hin
  obtain hover | hleft := newLoop_wrong h.prepared hsplit hmatches hloop
  · have hestimated := hexact.estimated
    rw [h.viewTokens_view, h.receipt_eq] at hestimated
    exact absurd hestimated hover.ne'
  · have homitted := hexact.omitted found candidates h.neighborhood_eq h.rank_eq before fact after hsplit (by
      rw [h.view_eq]
      exact fun hin => hleft (mem_sortedFacts.mp hin)) _ (h.run_eq hsplit)
    rw [h.viewTokens_turn hsplit,
      show basketOf (selectedAfter estimator request found.nodes before) = _ from hmatches.1]
      at homitted
    exact Nat.lt_irrefl _ (homitted.trans_le hfits)

theorem exact_of_no_newLoop (h : Compiled estimator p request found candidates bundle)
    (hloop : NoNewLoopFits estimator p request) : Exact estimator p request bundle := by
  have hno := hloop found candidates h.neighborhood_eq h.rank_eq
  have hspends := h.spends_all
  refine ⟨?_, ?_, fun found' candidates' hfound hrank before fact after hsplit hleft s hs => ?_⟩
  · have hmatches := (@matches_seeded estimator request found.nodes).run candidates hno
    rw [h.viewTokens_view, h.receipt_eq]
    change (selectedAfter estimator request found.nodes candidates).used = _
    rw [show (selectedAfter estimator request found.nodes candidates).used = _ from hmatches.2,
      show basketOf (selectedAfter estimator request found.nodes candidates) = _ from hmatches.1]
  · rw [h.receipt_eq]
    change (sortedFacts _).length + _ = candidates.length
    rw [sortedFacts, List.length_mergeSort]
    exact hspends.counted
  · obtain rfl := Except.ok.inj (h.neighborhood_eq.symm.trans hfound)
    obtain rfl := Except.ok.inj (h.rank_eq.symm.trans hrank)
    obtain rfl := Except.ok.inj ((h.run_eq hsplit).symm.trans hs)
    rw [h.viewTokens_turn hsplit]
    by_contra hroom
    have hmatches := (@matches_seeded estimator request found.nodes).run before fun before' fact' after' hs =>
      hno before' fact' (after' ++ fact :: after) (by rw [hsplit, hs, List.append_assoc, List.cons_append])
    have hbasket : basketOf (selectedAfter estimator request found.nodes before) = _ := hmatches.1
    have hfits := Nat.not_lt.mp hroom
    have hnew : ¬ NewLoop (selectedAfter estimator request found.nodes before) fact := by
      intro hnew
      rw [hbasket] at hfits
      refine hno before fact after hsplit hnew.1 ?_ hfits
      rw [← hbasket, mem_resources]
      exact hnew.2
    have hcharge := @charge_eq estimator found.nodes (selectedAfter estimator request found.nodes before) fact
    rw [if_neg hnew, Nat.add_zero] at hcharge
    have hused : (selectedAfter estimator request found.nodes before).used = _ := hmatches.2
    refine hleft ?_
    rw [h.view_eq, hsplit, selectedAfter_split]
    refine mem_sortedFacts.mpr (facts_run after ?_)
    rw [turn, if_neg (by
      rw [hused, ← hbasket, hcharge]
      exact hroom)]
    exact List.mem_append_right _ List.mem_cons_self

end Compiled

theorem exists_compiled {crate : GraphCrate} (hp : Valid p) {bundle : ContextBundle crate.Graph}
    (h : compile (projectGraph crate) estimator p request = .ok bundle) :
    ∃ found candidates, Compiled estimator p request found candidates bundle := by
  by_cases hne : request.seeds = []
  · rw [compile, throwIf, if_pos hne] at h
    cases h
  by_cases hseeds : ∀ seed ∈ request.seeds, Vertex p request seed
  · obtain ⟨found, candidates, hfound, hrank, hprepared, -⟩ := exists_prepared hp hseeds
    obtain ⟨hover, hfits⟩ := @compile_eq p request estimator _ (projectGraph crate) hne found candidates hfound hrank
      hprepared
    by_cases hsmall : request.tokenBudget < seedCost estimator request found.nodes
    · rw [hover hsmall] at h
      cases h
    · obtain ⟨t, hrun, -, hcompile⟩ := hfits hsmall
      rw [foldlM_selectFact hprepared.found, Except.ok.injEq] at hrun
      obtain rfl : selectedAfter estimator request found.nodes candidates = t := hrun
      rw [hcompile] at h
      obtain ⟨graph, -, rfl⟩ := map_eq_ok.mp h
      exact ⟨found, candidates, hfound, hrank, hprepared, hsmall, rfl, rfl⟩
  · obtain ⟨id, hcompile⟩ := @compile_missing p request estimator _ (projectGraph crate) hp (by simpa using hseeds)
    rw [hcompile] at h
    cases h

/-- The receipt of a compilation is exact unless a fact from an unselected entity to itself fits at its
turn. -/
theorem receipt_exact_iff (handed : List MemoryFact) (p : MemoryProjection) (hp : Obtained handed p)
    (crate : GraphCrate)
    (estimator : TokenEstimator) (request : ContextRequest) (bundle : ContextBundle crate.Graph)
    (h : compile (projectGraph crate) estimator p request = .ok bundle) :
    Exact estimator p request bundle ↔ NoNewLoopFits estimator p request := by
  obtain ⟨found, candidates, hcompiled⟩ := exists_compiled hp.valid.1 h
  exact ⟨hcompiled.no_newLoop_of_exact, hcompiled.exact_of_no_newLoop⟩

/-- A fact to the file with more evidence than there is room for, and a fact from the file to itself. -/
def wide : MemoryFact :=
  { Common.fact Common.factOne (Common.ts 10) (Common.ts 20) none with
    evidence := ⟨List.replicate 10 ⟨Common.testKind, ⟨"suite", by decide⟩, none, none⟩, by decide⟩ }

def loop : MemoryFact :=
  { Common.fact Common.factTwo (Common.ts 10) (Common.ts 20) none with source := Common.file }

def loopLog : List (StoredEvent MemoryEvent) :=
  [Common.stored 0 (Common.event (Common.eventId 0) (Common.ts 1) (.nodeUpserted (Common.node Common.task))),
    Common.stored 1 (Common.event (Common.eventId 1) (Common.ts 1) (.nodeUpserted (Common.node Common.file))),
    Common.stored 2 (Common.event (Common.eventId 2) (Common.ts 20) (.factRecorded wide)),
    Common.stored 3 (Common.event (Common.eventId 3) (Common.ts 20) (.factRecorded loop))]

theorem priorityLe_iff {a b : Priority} : a.le b = true ↔ a.distance < b.distance ∨ a.distance = b.distance ∧
    (b.confidence.toNat < a.confidence.toNat ∨ b.confidence.toNat = a.confidence.toNat ∧
      (b.recordedAt < a.recordedAt ∨ b.recordedAt = a.recordedAt ∧ (compare a.id b.id).isLE = true)) := by
  rw [@eq_comm _ b.confidence.toNat, @eq_comm _ b.recordedAt, UInt16.toNat_inj, ← UInt16.lt_iff_toNat_lt]
  simp only [Priority.le, Bool.or_eq_true, Bool.and_eq_true, decide_eq_true_eq, beq_iff_eq]

theorem priorityLe_trans (a b c : Priority) (hab : a.le b = true) (hbc : b.le c = true) : a.le c = true := by
  rw [priorityLe_iff] at hab hbc ⊢
  exact lex_trans hab hbc fun hab hbc => lex_trans hbc hab fun hbc hab => lex_trans hbc hab fun hbc hab =>
    keyLe_trans id a.id b.id c.id hab hbc

theorem priorityLe_total (a b : Priority) : (a.le b || b.le a) = true := by
  rw [Bool.or_eq_true, priorityLe_iff, priorityLe_iff]
  have hid := keyLe_total id a.id b.id
  rw [Bool.or_eq_true] at hid
  exact lex_total _ _ (lex_total _ _ (lex_total _ _ hid.symm)).symm

theorem sort_keyed (keyed : List (Priority × MemoryFact)) :
    keyed.mergeSort (fun a b => a.1.le b.1) = keyed.insertionSort fun a b => a.1.le b.1 = true :=
  mergeSort_eq_insertionSort (fun a b c => priorityLe_trans a.1 b.1 c.1) (fun a b => priorityLe_total a.1 b.1) keyed

theorem sort_seeds (seeds : List EntityId) :
    seeds.mergeSort (fun a b => (compare a b).isLE) = seeds.insertionSort fun a b => (compare a b).isLE = true :=
  mergeSort_eq_insertionSort (keyLe_trans id) (keyLe_total id) seeds

theorem sort_facts (facts : List MemoryFact) :
    facts.mergeSort (fun left right => (compare left.id right.id).isLE) =
      facts.insertionSort fun left right => (compare left.id right.id).isLE = true :=
  mergeSort_eq_insertionSort (keyLe_trans MemoryFact.id) (keyLe_total MemoryFact.id) facts

theorem obtained_loop : Obtained [wide, loop] (applyAll ⟨1, 2⟩ loopLog) :=
  obtained_of_allAccepted (by decide +kernel) (by rfl)

theorem receipt_exact_iff_small : ∃ bundle,
    compile (projectGraph lenientCrate) countingTexts (applyAll ⟨1, 2⟩ loopLog) { aroundTask with tokenBudget := 30 } =
      .ok bundle ∧
    (Exact countingTexts (applyAll ⟨1, 2⟩ loopLog) { aroundTask with tokenBudget := 30 } bundle ↔
      NoNewLoopFits countingTexts (applyAll ⟨1, 2⟩ loopLog) { aroundTask with tokenBudget := 30 }) := by
  obtain ⟨bundle, hbundle⟩ : ∃ bundle, compile (projectGraph lenientCrate) countingTexts (applyAll ⟨1, 2⟩ loopLog)
      { aroundTask with tokenBudget := 30 } = .ok bundle := by
    apply exists_ok_of_isOk
    simp only [compile, neighborhood, selectSeeds, sortedSeeds, rankCandidates, sort_keyed, sort_seeds, sort_facts]
    decide +kernel
  exact ⟨bundle, hbundle,
    receipt_exact_iff [wide, loop] (applyAll ⟨1, 2⟩ loopLog) obtained_loop lenientCrate countingTexts
    { aroundTask with tokenBudget := 30 } bundle hbundle⟩

/-- The file is paid for twice, as both ends of the fact from it to itself. -/
theorem receipt_overcharges : Obtained [wide, loop] (applyAll ⟨1, 2⟩ loopLog) ∧
    ∃ bundle, compile (projectGraph lenientCrate) countingTexts (applyAll ⟨1, 2⟩ loopLog)
        { aroundTask with tokenBudget := 50 } = .ok bundle ∧
      bundle.receipt.estimatedTokens = 49 ∧ viewTokens countingTexts bundle.view = 40 ∧
      ¬ Exact countingTexts (applyAll ⟨1, 2⟩ loopLog) { aroundTask with tokenBudget := 50 } bundle := by
  refine ⟨obtained_loop, ?_⟩
  have hcompile : (compile (projectGraph lenientCrate) countingTexts (applyAll ⟨1, 2⟩ loopLog)
      { aroundTask with tokenBudget := 50 }).map (fun bundle => (bundle.receipt.estimatedTokens,
        viewTokens countingTexts bundle.view)) = .ok (49, 40) := by
    simp only [compile, neighborhood, selectSeeds, sortedSeeds, rankCandidates, sort_keyed, sort_seeds, sort_facts]
    decide +kernel
  obtain ⟨bundle, hbundle, hpair⟩ := map_eq_ok.mp hcompile
  obtain ⟨hestimated, htokens⟩ := Prod.mk.inj hpair
  refine ⟨bundle, hbundle, hestimated, htokens, fun h => ?_⟩
  have hequal := h.estimated
  rw [hestimated, htokens] at hequal
  exact absurd hequal (by decide)

end WeavatrixMemory.Context.Receipt
