import Mathlib.Algebra.Order.BigOperators.Group.Finset
import WeavatrixMemory.Context.Receipt

namespace WeavatrixMemory.Context.Whole

open Error Identity Domain GraphProjection Projection.State Projection.Memory Projection.Invariant
open Snapshot.Routes Compiler Neighborhood Bounds Budget Bundles Receipt Budgets Breadth Outcome

/-- What a fact from a node to itself may be charged besides: the node once more. -/
def loopPrice (estimator : TokenEstimator) (nodes : BTreeMap EntityId MemoryNode) (fact : MemoryFact) : Nat :=
  if fact.source = fact.target then priceOf estimator nodes fact.source else 0

/-- What all of a neighborhood comes to at most. -/
def wholeTokens (estimator : TokenEstimator) (found : Compiler.Neighborhood) : Nat :=
  (found.nodes.toList.map fun entry => nodeTokens estimator entry.2).sum +
    ((found.facts.toList.map (·.2)).map fun fact =>
      factTokens estimator fact + loopPrice estimator found.nodes fact).sum

def Within (p : MemoryProjection) (request : ContextRequest) (id : EntityId) : Prop :=
  ∃ n ≤ request.maxDepth, Distance (Adjacent p request) (· ∈ request.seeds) n id

/-- A context that leaves nothing out: all nodes within the depth, and all facts between them. -/
structure Complete (p : MemoryProjection) (request : ContextRequest) (view : MemoryView) : Prop where
  nodes : ∀ node, node ∈ view.nodes ↔ Within p request node.id ∧ Shown p request node.id node
  facts : ∀ fact, fact ∈ view.facts ↔
    Edge p request fact ∧ Within p request fact.source ∧ Within p request fact.target

variable {estimator : TokenEstimator} {p : MemoryProjection} {request : ContextRequest}
  {nodes : BTreeMap EntityId MemoryNode} {candidates : List MemoryFact} {fact : MemoryFact} {s : Selection}

theorem resources_le {resources : Finset EntityId} (h : ∀ id ∈ resources, nodes.contains id = true) :
    ∑ id ∈ resources, priceOf estimator nodes id ≤
      (nodes.toList.map fun entry => nodeTokens estimator entry.2).sum := by
  have hkeys : (nodes.toList.map (·.1)).Nodup := List.pairwise_map.mpr
    (Std.ExtTreeMap.distinct_keys_toList.imp fun hne heq => hne (Std.LawfulEqOrd.compare_eq_iff_eq.mpr heq))
  have hprice (entry : EntityId × MemoryNode) (he : entry ∈ nodes.toList) :
      priceOf estimator nodes entry.1 = nodeTokens estimator entry.2 := by
    rw [priceOf, Std.ExtTreeMap.mem_toList_iff_getElem?_eq_some.mp he]
    rfl
  calc ∑ id ∈ resources, priceOf estimator nodes id
      ≤ ∑ id ∈ (nodes.toList.map (·.1)).toFinset, priceOf estimator nodes id := by
        refine Finset.sum_le_sum_of_subset fun id hid => List.mem_toFinset.mpr ?_
        obtain ⟨node, hnode, -⟩ := indexMap_eq (h id hid)
        exact List.mem_map.mpr ⟨(id, node), Std.ExtTreeMap.mem_toList_iff_getElem?_eq_some.mpr hnode, rfl⟩
    _ = ((nodes.toList.map (·.1)).map (priceOf estimator nodes)).sum := List.sum_toFinset _ hkeys
    _ = (nodes.toList.map fun entry => nodeTokens estimator entry.2).sum := by
        rw [List.map_map]
        exact congrArg List.sum (List.map_congr_left hprice)

theorem charge_le : charge estimator nodes s fact ≤
    extra (pricesOf estimator nodes) (basketOf s) fact + loopPrice estimator nodes fact := by
  rw [charge_eq, loopPrice]
  refine Nat.add_le_add_left ?_ _
  by_cases hloop : NewLoop s fact
  · rw [if_pos hloop, if_pos hloop.1]
  · rw [if_neg hloop]
    exact Nat.zero_le _

theorem worth_le_whole (h : Prepared request nodes candidates) {before after : List MemoryFact}
    (hsplit : candidates = before ++ fact :: after) (hfacts : s.facts = before)
    (hspends : Spends estimator request nodes request.seeds before s) :
    worth (pricesOf estimator nodes) (add (pricesOf estimator nodes) (basketOf s) fact) +
        ((before ++ [fact]).map (loopPrice estimator nodes)).sum ≤
      (nodes.toList.map fun entry => nodeTokens estimator entry.2).sum +
        (candidates.map fun fact => factTokens estimator fact + loopPrice estimator nodes fact).sum := by
  have hfound : Found nodes fact := h.found fact (hsplit ▸ List.mem_append_right _ List.mem_cons_self)
  have hresources : ∑ id ∈ (basketOf s).resources ∪ {fact.source, fact.target}, priceOf estimator nodes id ≤
      (nodes.toList.map fun entry => nodeTokens estimator entry.2).sum := by
    refine resources_le fun id hid => ?_
    rw [Finset.mem_union, mem_resources, Finset.mem_insert, Finset.mem_singleton] at hid
    obtain hid | rfl | rfl := hid
    · exact hspends.found id hid
    · exact hfound.1
    · exact hfound.2
  have hcandidates : candidates = before ++ [fact] ++ after := by
    rw [hsplit, List.append_assoc, List.singleton_append]
  have hsum : ((before ++ [fact]).map (factTokens estimator)).sum +
      ((before ++ [fact]).map (loopPrice estimator nodes)).sum ≤
        (candidates.map fun fact => factTokens estimator fact + loopPrice estimator nodes fact).sum := by
    rw [← List.sum_map_add, hcandidates]
    exact ((List.sublist_append_left (before ++ [fact]) after).map _).sum_le_sum fun _ _ => Nat.zero_le _
  change _ + ((s.facts ++ [fact]).map (factTokens estimator)).sum + _ ≤ _
  rw [hfacts, Nat.add_assoc]
  exact Nat.add_le_add hresources hsum

theorem takes_all (h : Prepared request nodes candidates)
    (hbudget : (nodes.toList.map fun entry => nodeTokens estimator entry.2).sum +
      (candidates.map fun fact => factTokens estimator fact + loopPrice estimator nodes fact).sum ≤ request.tokenBudget)
    (hfits : ¬ request.tokenBudget < seedCost estimator request nodes) {before after : List MemoryFact}
    (hsplit : candidates = before ++ after) :
    (selectedAfter estimator request nodes before).facts = before ∧
      (selectedAfter estimator request nodes before).used ≤
        worth (pricesOf estimator nodes) (basketOf (selectedAfter estimator request nodes before)) +
          (before.map (loopPrice estimator nodes)).sum := by
  induction before using List.reverseRecOn generalizing after with
  | nil => exact ⟨rfl, (Nat.add_zero _).symm ▸ worth_seeded.ge⟩
  | append_singleton before fact ih =>
      rw [List.append_assoc, List.singleton_append] at hsplit
      obtain ⟨hfacts, hused⟩ := ih hsplit
      have hwhole := (worth_le_whole h hsplit hfacts (selectedAfter_spends h hfits hsplit)).trans hbudget
      have hturn : selectedAfter estimator request nodes (before ++ [fact]) =
          turn estimator request nodes (selectedAfter estimator request nodes before) fact :=
            selectedAfter_split before [] fact
      rw [hturn]
      generalize selectedAfter estimator request nodes before = s at hfacts hused hwhole
      have hworth : worth (pricesOf estimator nodes) (add (pricesOf estimator nodes) (basketOf s) fact) =
          worth (pricesOf estimator nodes) (basketOf s) + extra (pricesOf estimator nodes) (basketOf s) fact :=
        worth_add _ _ _
      have hcharge := @charge_le estimator nodes fact s
      have hloops : ((before ++ [fact]).map (loopPrice estimator nodes)).sum =
          (before.map (loopPrice estimator nodes)).sum + loopPrice estimator nodes fact := by
        rw [List.map_append, List.sum_append, List.map_singleton, List.sum_singleton]
      have hroom : ¬ request.tokenBudget < s.used + charge estimator nodes s fact := by omega
      rw [turn, if_neg hroom]
      refine ⟨congrArg (· ++ [fact]) hfacts, ?_⟩
      rw [basketOf_taken, hworth, hloops]
      change _ + charge _ _ _ _ ≤ _
      omega

theorem ends_of_found {s : Search} (hs : Searching p request s) (hq : s.queue = []) {id : EntityId}
    (hid : s.distances.contains id = true) : id ∈ request.seeds ∨
      ∃ fact ∈ (Search.found s).facts.toList.map (·.2), fact.source = id ∨ fact.target = id := by
  obtain ⟨n, hn⟩ := contains_iff.mp hid
  obtain ⟨⟨hwalk, hleast⟩, hle⟩ := (hs.layered.exact hq id n).mp hn
  cases hwalk with
  | source hseed => exact .inl hseed
  | @step m u _ hwalk hadjacent =>
      obtain ⟨fact, hedge, hjoins⟩ := hadjacent
      -- The node before is as near as the walk to it is long.
      have hu : s.distances.contains u = true := by
        refine contains_iff.mpr ⟨m,
          (hs.layered.exact hq u m).mpr ⟨⟨hwalk, fun k hk hshort => ?_⟩, Nat.le_of_succ_le hle⟩⟩
        exact hleast (k + 1) (Nat.succ_lt_succ hk) (.step hshort ⟨fact, hedge, hjoins⟩)
      have hends : s.distances.contains fact.source = true ∧ s.distances.contains fact.target = true := by
        obtain ⟨rfl, rfl⟩ | ⟨rfl, rfl⟩ := hjoins
        · exact ⟨hu, hid⟩
        · exact ⟨hid, hu⟩
      have hdone (v : EntityId) (hv : s.distances.contains v = true) : Done s v := ⟨hv, hq ▸ List.not_mem_nil⟩
      have hfact := found_facts_iff.mpr ⟨hs.joined fact hedge (hdone _ hends.1) (hdone _ hends.2), hends⟩
      refine .inr ⟨fact, List.mem_map.mpr ⟨(fact.id, fact), ?_, rfl⟩, hjoins.elim (fun h => .inr h.2) fun h => .inl h.1⟩
      exact Std.ExtTreeMap.mem_toList_iff_getElem?_eq_some.mpr hfact

theorem within_iff {s : Search} (hs : Searching p request s) (hq : s.queue = []) {id : EntityId} :
    Within p request id ↔ s.distances.contains id = true := by
  rw [contains_iff, Within]
  exact exists_congr fun n => and_comm.trans (hs.layered.exact hq id n).symm

theorem complete_of_all (hp : Valid p) {s : Search} (hs : Searching p request s) (hq : s.queue = [])
    (hcandidates : candidates.Perm ((Search.found s).facts.toList.map (·.2))) {t : Selection}
    (hfacts : t.facts = candidates)
    (hspends : Spends estimator request (Search.found s).nodes request.seeds candidates t) :
    Complete p request (viewOf (Search.found s).nodes t) := by
  refine ⟨fun node => ?_, fun fact => ?_⟩
  · change node ∈ heldNodes s.nodes t ↔ _
    rw [within_iff hs hq, ← hs.gathered.node_iff hp, heldNodes, List.mem_filterMap]
    constructor
    · rintro ⟨id, -, hnode⟩
      rwa [((hs.gathered.node_iff hp).mp hnode).2.2]
    · intro hnode
      refine ⟨node.id, Std.ExtTreeSet.mem_toList.mpr ?_, hnode⟩
      obtain hseed | ⟨fact, hfact, hends⟩ := ends_of_found hs hq ((hs.gathered.node_iff hp).mp hnode).1
      · exact hspends.seeds _ hseed
      · obtain ⟨hsource, htarget⟩ := hspends.endpoints fact (hfacts ▸ hcandidates.mem_iff.mpr hfact)
        obtain hid | hid := hends
        · exact hid ▸ hsource
        · exact hid ▸ htarget
  · change fact ∈ sortedFacts t ↔ _
    rw [mem_sortedFacts, hfacts, hcandidates.mem_iff, within_iff hs hq, within_iff hs hq, List.mem_map]
    have hdone (v : EntityId) (hv : s.distances.contains v = true) : Done s v := ⟨hv, hq ▸ List.not_mem_nil⟩
    constructor
    · rintro ⟨⟨id, other⟩, he, rfl⟩
      obtain ⟨hfact, hends⟩ := found_facts_iff.mp (Std.ExtTreeMap.mem_toList_iff_getElem?_eq_some.mp he)
      exact ⟨(hs.gathered.facts id other hfact).2, hends⟩
    · rintro ⟨hedge, hends⟩
      have hfact := found_facts_iff.mpr ⟨hs.joined fact hedge (hdone _ hends.1) (hdone _ hends.2), hends⟩
      exact ⟨(fact.id, fact), Std.ExtTreeMap.mem_toList_iff_getElem?_eq_some.mpr hfact, rfl⟩

/-- A budget that holds for the whole neighborhood gets all of it: the nodes within the depth, the facts between them,
and nothing else. -/
theorem whole_context {handed : List MemoryFact} (hp : Obtained handed p) (hne : request.seeds ≠ [])
    (hseeds : ∀ seed ∈ request.seeds, Vertex p request seed) (found : Compiler.Neighborhood)
    (hfound : neighborhood p request = .ok found) (hbudget : wholeTokens estimator found ≤ request.tokenBudget)
    (crate : GraphCrate) :
    Holds (fun bundle => Complete p request bundle.view ∧ bundle.receipt.omittedByBudget = 0)
      (fun e => ∃ reason, e = .graph reason) (compile (projectGraph crate) estimator p request) := by
  have hvalid := hp.valid.1
  obtain ⟨found', candidates, hfound', hrank, hprepared, -⟩ := exists_prepared hvalid hseeds
  obtain ⟨s, hsearch, hs, hq⟩ := neighborhood_found hvalid hseeds
  obtain rfl : found = Search.found s := Except.ok.inj (hfound.symm.trans hsearch)
  obtain rfl : found' = Search.found s := Except.ok.inj (hfound'.symm.trans hsearch)
  have hends (fact : MemoryFact) (hfact : fact ∈ (Search.found s).facts.toList.map (·.2)) :
      (Search.found s).distances.contains fact.source = true ∧
        (Search.found s).distances.contains fact.target = true := by
    obtain ⟨⟨id, other⟩, he, rfl⟩ := List.mem_map.mp hfact
    exact (found_facts_iff.mp (Std.ExtTreeMap.mem_toList_iff_getElem?_eq_some.mp he)).2
  obtain ⟨ranked, hranked, hperm⟩ := rankCandidates_perm hends
  obtain rfl : candidates = ranked := Except.ok.inj (hrank.symm.trans hranked)
  have hcost :=
    (hperm.map fun fact => factTokens estimator fact + loopPrice estimator (Search.found s).nodes fact).sum_eq
  rw [wholeTokens, ← hcost] at hbudget
  have hseedCost : ¬ request.tokenBudget < seedCost estimator request (Search.found s).nodes := by
    have hle := @resources_le estimator (Search.found s).nodes request.seeds.toFinset fun id hid =>
      hprepared.seeds id (List.mem_toFinset.mp hid)
    have hworth := @worth_seeded estimator request (Search.found s).nodes
    rw [basketOf_seeded] at hworth
    change ∑ id ∈ request.seeds.toFinset, priceOf estimator (Search.found s).nodes id + 0 = _ at hworth
    omega
  obtain ⟨-, hcompile⟩ := @compile_eq p request estimator _ (projectGraph crate) hne _ candidates hfound hrank hprepared
  obtain ⟨t, hrun, hspends, hcompile⟩ := hcompile hseedCost
  rw [foldlM_selectFact hprepared.found, Except.ok.injEq] at hrun
  obtain ⟨hfacts, -⟩ := takes_all hprepared hbudget hseedCost (List.append_nil candidates).symm
  have hfacts : t.facts = candidates := hrun ▸ hfacts
  have hview := viewOf_within hprepared hspends
  have hfails := projectGraph_fails crate hview.endpoints fun fact hf =>
    hprepared.evidenced fact (hspends.facts.subset (mem_sortedFacts.mp hf))
  rw [hcompile]
  cases hgraph : projectGraph crate (viewOf (Search.found s).nodes t) with
  | error e => exact hfails.of_error hgraph
  | ok graph =>
      refine ⟨complete_of_all hvalid hs hq hperm hfacts hspends, ?_⟩
      have hcounted := hspends.counted
      rw [hfacts] at hcounted
      exact Nat.add_eq_left.mp hcounted

/-- Just enough for two facts, one of them from a node to itself. -/
def roomy : ContextRequest := { aroundTask with tokenBudget := 89 }

theorem whole_context_loop : ∃ bundle,
    compile (projectGraph lenientCrate) countingTexts (applyAll ⟨1, 2⟩ loopLog) roomy = .ok bundle ∧
      Complete (applyAll ⟨1, 2⟩ loopLog) roomy bundle.view := by
  obtain ⟨bundle, hbundle⟩ : ∃ bundle, compile (projectGraph lenientCrate) countingTexts (applyAll ⟨1, 2⟩ loopLog)
      roomy = .ok bundle := by
    apply exists_ok_of_isOk
    simp only [compile, neighborhood, selectSeeds, sortedSeeds, rankCandidates, sort_keyed, sort_seeds, sort_facts]
    decide +kernel
  have hwhole : (neighborhood (applyAll ⟨1, 2⟩ loopLog) roomy).map (wholeTokens countingTexts) = .ok 89 := by
    simp only [neighborhood, sortedSeeds, sort_seeds]
    decide +kernel
  obtain ⟨found, hfound, hwhole⟩ := map_eq_ok.mp hwhole
  have hseeds : ∀ seed ∈ roomy.seeds, Vertex (applyAll ⟨1, 2⟩ loopLog) roomy seed :=
    List.forall_mem_singleton.mpr ⟨Common.node Common.task, ⟨by decide +kernel, rfl⟩, by decide +kernel⟩
  have hcomplete := whole_context obtained_loop (by decide) hseeds found hfound hwhole.le lenientCrate
  exact ⟨bundle, hbundle, (hcomplete.of_ok hbundle).1⟩

end WeavatrixMemory.Context.Whole
