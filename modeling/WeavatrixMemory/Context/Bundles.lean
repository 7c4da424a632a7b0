import WeavatrixMemory.Context.Budget

namespace WeavatrixMemory.Context.Bundles

open Error Identity Domain GraphProjection Projection.State Projection.Memory Projection.Invariant
open Snapshot.Routes Compiler Neighborhood Bounds Budget Budgets Outcome

variable {p : MemoryProjection} {request : ContextRequest} {estimator : TokenEstimator}

structure Prepared (request : ContextRequest) (nodes : BTreeMap EntityId MemoryNode) (candidates : List MemoryFact) :
    Prop where
  keys : ∀ (id : EntityId) node, nodes[id]? = some node → node.id = id
  seeds : ∀ seed ∈ request.seeds, nodes.contains seed = true
  found : ∀ fact ∈ candidates, Found nodes fact
  ids : (candidates.map MemoryFact.id).Nodup
  evidenced : ∀ fact ∈ candidates, fact.evidence.items ≠ []

def viewOf (nodes : BTreeMap EntityId MemoryNode) (s : Selection) : MemoryView := ⟨heldNodes nodes s, sortedFacts s⟩

def receiptOf (estimator : TokenEstimator) (p : MemoryProjection) (request : ContextRequest)
    (found : Compiler.Neighborhood) (candidates : List MemoryFact) (s : Selection) : ContextReceipt where
  validAt := request.validAt
  knownAt := request.knownAt
  sourcePosition := p.lastGlobalPosition
  estimator := estimator.name
  tokenBudget := request.tokenBudget
  estimatedTokens := s.used
  examinedFacts := candidates.length
  selectedFacts := (sortedFacts s).length
  omittedByBudget := s.omitted
  excludedByScope := found.excluded

theorem evidence_ne_nil (hp : Valid p) {fact : MemoryFact} (h : fact ∈ p.facts) : fact.evidence.items ≠ [] := by
  have hvalid := hp.sound.valid fact h
  simp only [MemoryFact.validate, unit_bind_eq_ok, throwIf_eq_ok] at hvalid
  exact hvalid.2.2.2.1

theorem exists_prepared (hp : Valid p) (hseeds : ∀ seed ∈ request.seeds, Vertex p request seed) :
    ∃ found candidates, neighborhood p request = .ok found ∧
      rankCandidates found.distances (found.facts.toList.map (·.2)) = .ok candidates ∧
      Prepared request found.nodes candidates ∧ ∀ seed ∈ request.seeds, found.nodes[seed]? = shown p request seed := by
  obtain ⟨s, hfound, hs, -⟩ := neighborhood_found hp hseeds
  have hfacts : ∀ fact ∈ (Search.found s).facts.toList.map (·.2), (Search.found s).facts[fact.id]? = some fact := by
    intro fact hf
    obtain ⟨⟨id, other⟩, he, rfl⟩ := List.mem_map.mp hf
    have hget := Std.ExtTreeMap.mem_toList_iff_getElem?_eq_some.mp he
    rw [(hs.gathered.facts id other (found_facts_iff.mp hget).1).1]
    exact hget
  obtain ⟨candidates, hrank, hperm⟩ := @rankCandidates_perm (Search.found s).distances
    ((Search.found s).facts.toList.map (·.2)) fun fact hf => (found_facts_iff.mp (hfacts fact hf)).2
  have hstart : ∀ seed ∈ request.seeds, s.distances.contains seed = true := by
    intro seed hseed
    exact contains_iff.mpr ⟨0, hs.layered.source seed hseed⟩
  refine ⟨Search.found s, candidates, hfound, hrank, ⟨fun id node hn => ?_, fun seed hseed => ?_, fun fact hf => ?_, ?_,
    fun fact hf => ?_⟩, fun seed hseed => ?_⟩
  · exact ((hs.gathered.node_iff hp).mp hn).2.2
  · exact (hs.gathered.contains_eq hp seed).trans (hstart seed hseed)
  · obtain ⟨-, hsource, htarget⟩ := found_facts_iff.mp (hfacts fact (hperm.mem_iff.mp hf))
    exact ⟨(hs.gathered.contains_eq hp _).trans hsource, (hs.gathered.contains_eq hp _).trans htarget⟩
  · refine (hperm.map MemoryFact.id).nodup_iff.mpr (nodup_valuesOf fun id fact hf => ?_)
    exact (hs.gathered.facts id fact (found_facts_iff.mp hf).1).1
  · have hedge := (hs.gathered.facts _ _ (found_facts_iff.mp (hfacts fact (hperm.mem_iff.mp hf))).1).2
    exact evidence_ne_nil hp ((edge_iff hp).mp hedge).1
  · exact (hs.gathered.nodes seed).trans (if_pos (hstart seed hseed))

def seedTokens (estimator : TokenEstimator) (p : MemoryProjection) (request : ContextRequest) : Nat :=
  ∑ seed ∈ request.seeds.toFinset, (shown p request seed).elim 0 (nodeTokens estimator)

theorem seedCost_eq {nodes : BTreeMap EntityId MemoryNode}
    (h : ∀ seed ∈ request.seeds, nodes[seed]? = shown p request seed) :
    seedCost estimator request nodes = seedTokens estimator p request := by
  have hset : (sortedSeeds request).toFinset = request.seeds.toFinset := by
    ext id
    rw [List.mem_toFinset, List.mem_toFinset, mem_sortedSeeds]
  rw [seedCost, ← List.sum_toFinset _ (sortedSeeds_ascending request).nodup, hset, seedTokens]
  refine Finset.sum_congr rfl fun id hid => ?_
  rw [priceOf, h id (List.mem_toFinset.mp hid)]

theorem spends_seeded {nodes : BTreeMap EntityId MemoryNode} {candidates : List MemoryFact}
    (h : Prepared request nodes candidates) (hfits : ¬ request.tokenBudget < seedCost estimator request nodes) :
    Spends estimator request nodes request.seeds [] (seeded estimator request nodes) where
  paid := worth_seeded.le
  within := Nat.not_lt.mp hfits
  found := fun id hid => h.seeds id (mem_seeded.mp hid)
  seeds := fun _ => mem_seeded.mpr
  endpoints := fun _ h => absurd h List.not_mem_nil
  facts := List.Sublist.refl _
  counted := rfl

theorem compile_eq {Graph : Type} (projectGraph : MemoryView → Result Graph) (hne : request.seeds ≠ [])
    {found : Compiler.Neighborhood} {candidates : List MemoryFact} (hfound : neighborhood p request = .ok found)
    (hrank : rankCandidates found.distances (found.facts.toList.map (·.2)) = .ok candidates)
    (h : Prepared request found.nodes candidates) :
    (request.tokenBudget < seedCost estimator request found.nodes →
      compile projectGraph estimator p request =
        .error (.budgetTooSmall (seedCost estimator request found.nodes) request.tokenBudget)) ∧
    (¬ request.tokenBudget < seedCost estimator request found.nodes →
      ∃ t, candidates.foldlM (selectFact estimator request found.nodes) (seeded estimator request found.nodes) = .ok t ∧
        Spends estimator request found.nodes request.seeds candidates t ∧
        compile projectGraph estimator p request = (projectGraph (viewOf found.nodes t)).map fun graph =>
          ⟨viewOf found.nodes t, graph, receiptOf estimator p request found candidates t⟩) := by
  have hselect := @selectSeeds_eq estimator request found.nodes h.seeds
  have hcompile : compile projectGraph estimator p request = (do
      let seeds ← selectSeeds estimator request found.nodes
      let candidates ← rankCandidates found.distances (found.facts.toList.map (·.2))
      let selection ← candidates.foldlM (selectFact estimator request found.nodes) ⟨seeds.1, seeds.2, [], 0⟩
      let nodes ← selection.selected.toList.mapM (indexMap found.nodes)
      let graph ← projectGraph ⟨nodes, sortedFacts selection⟩
      .ok ⟨⟨nodes, sortedFacts selection⟩, graph, receiptOf estimator p request found candidates selection⟩) := by
    rw [compile, throwIf_of_not hne, ok_bind, hfound, ok_bind]
    rfl
  constructor
  · intro hover
    rw [hcompile, hselect, if_pos hover]
    rfl
  · intro hfits
    obtain ⟨t, hrun, hspends⟩ := (spends_seeded h hfits).run candidates h.found
    refine ⟨t, hrun, hspends, ?_⟩
    have hnodes := @mapM_indexMap found.nodes t.selected.toList fun id hid =>
      hspends.found id (Std.ExtTreeSet.mem_toList.mp hid)
    rw [hcompile, hselect, if_neg hfits, ok_bind]
    dsimp only
    rw [hrank, ok_bind]
    have hselection : candidates.foldlM (selectFact estimator request found.nodes)
        ⟨(seeded estimator request found.nodes).selected, seedCost estimator request found.nodes, [], 0⟩ = .ok t := hrun
    rw [hselection, ok_bind, hnodes, ok_bind]
    change (projectGraph (viewOf found.nodes t) >>= _) = _
    cases projectGraph (viewOf found.nodes t) with
    | ok graph => rfl
    | error e => rfl

theorem projectGraph_fails (crate : GraphCrate) {view : MemoryView}
    (hends : ∀ fact ∈ view.facts, fact.source ∈ view.nodes.map MemoryNode.id ∧
      fact.target ∈ view.nodes.map MemoryNode.id) (hevidence : ∀ fact ∈ view.facts, fact.evidence.items ≠ []) :
    Holds (fun _ => True) (fun e => ∃ reason, e = .graph reason) (projectGraph crate view) := by
  have hgraph : ∀ {α : Type} (x : Except String α),
      Holds (fun _ => True) (fun e => ∃ reason, e = .graph reason) (ofGraph x) := by
    intro α x
    cases x with
    | ok a => exact trivial
    | error reason => exact ⟨reason, rfl⟩
  have hnodes : ∀ (nodes : List MemoryNode) (ids : BTreeMap EntityId crate.NodeId),
      Holds (fun r => ∀ id, id ∈ nodes.map MemoryNode.id ∨ ids.contains id = true → r.2.contains id = true)
        (fun e => ∃ reason, e = .graph reason) (projectNodes crate nodes ids) := by
    intro nodes
    induction nodes with
    | nil => exact fun ids id h => h.resolve_left List.not_mem_nil
    | cons node nodes ih =>
        intro ids
        have hnode : Holds (fun _ => True) (fun e => ∃ reason, e = .graph reason) (projectNode crate node) :=
          (hgraph _).bind fun _ _ => (hgraph _).bind fun _ _ => trivial
        refine hnode.bind fun made _ => (ih _).bind fun r hr id hid => hr id ?_
        rw [List.map_cons, List.mem_cons] at hid
        rw [Std.ExtTreeMap.contains_insert, Bool.or_eq_true]
        obtain (rfl | hid) | hid := hid
        · exact .inr (.inl (by simp))
        · exact .inl hid
        · exact .inr (.inr hid)
  rw [projectGraph]
  refine (hnodes view.nodes ∅).bind fun r hr => ?_
  have hedge : ∀ fact ∈ view.facts, Holds (fun _ => True) (fun e => ∃ reason, e = .graph reason)
      (projectFact crate r.2 fact) := by
    intro fact hf
    have hend : ∀ id, id ∈ view.nodes.map MemoryNode.id → Holds (fun _ => True) (fun e => ∃ reason, e = .graph reason)
        (endpoint crate r.2 id) := by
      intro id hid
      have hin := hr id (.inl hid)
      rw [Std.ExtTreeMap.contains_eq_isSome_getElem?, Option.isSome_iff_exists] at hin
      obtain ⟨made, hmade⟩ := hin
      rw [endpoint, hmade]
      exact trivial
    have hprimary : Holds (fun _ => True) (fun e => ∃ reason, e = .graph reason) (getAt fact.evidence.items 0) := by
      obtain ⟨item, rest, hitems⟩ := List.exists_cons_of_ne_nil (hevidence fact hf)
      rw [getAt_eq_ok.mpr (show fact.evidence.items[0]? = some item by rw [hitems]; rfl)]
      exact trivial
    exact (hend _ (hends fact hf).1).bind fun _ _ => (hend _ (hends fact hf).2).bind fun _ _ =>
      hprimary.bind fun _ _ => (hgraph _).bind fun _ _ => (hgraph _).bind fun _ _ => (hgraph _).bind fun _ _ => trivial
  exact (Holds.mapM hedge).bind fun _ _ => hgraph _

structure WithinBudget (estimator : TokenEstimator) (request : ContextRequest) (view : MemoryView) : Prop where
  tokens : (view.nodes.map (nodeTokens estimator)).sum + (view.facts.map (factTokens estimator)).sum ≤
    request.tokenBudget
  seeds : ∀ seed ∈ request.seeds, seed ∈ view.nodes.map MemoryNode.id
  endpoints : ∀ fact ∈ view.facts,
    fact.source ∈ view.nodes.map MemoryNode.id ∧ fact.target ∈ view.nodes.map MemoryNode.id
  nodes : Ascending (view.nodes.map MemoryNode.id)
  facts : Ascending (view.facts.map MemoryFact.id)
  nodesOnce : (view.nodes.map MemoryNode.id).Nodup
  factsOnce : (view.facts.map MemoryFact.id).Nodup

variable {nodes : BTreeMap EntityId MemoryNode} {candidates : List MemoryFact} {t : Selection}

theorem mem_sortedFacts {fact : MemoryFact} : fact ∈ sortedFacts t ↔ fact ∈ t.facts := List.mem_mergeSort

theorem sortedFacts_nodup (h : Prepared request nodes candidates)
    (hs : Spends estimator request nodes request.seeds candidates t) : ((sortedFacts t).map MemoryFact.id).Nodup := by
  rw [sortedFacts, ((List.mergeSort_perm t.facts _).map MemoryFact.id).nodup_iff]
  exact h.ids.sublist (hs.facts.map MemoryFact.id)

theorem sortedFacts_ascending (h : Prepared request nodes candidates)
    (hs : Spends estimator request nodes request.seeds candidates t) :
    Ascending ((sortedFacts t).map MemoryFact.id) := by
  have hsorted : ((sortedFacts t).map MemoryFact.id).Pairwise fun a b => (compare a b).isLE = true :=
    List.pairwise_map.mpr (pairwise_sorted MemoryFact.id t.facts)
  exact (hsorted.and (sortedFacts_nodup h hs)).imp fun hle => lt_of_isLE hle.1 hle.2

theorem viewOf_within (h : Prepared request nodes candidates)
    (hs : Spends estimator request nodes request.seeds candidates t) :
    WithinBudget estimator request (viewOf nodes t) := by
  have hids : (viewOf nodes t).nodes.map MemoryNode.id = t.selected.toList :=
    (@heldNodes_eq estimator nodes t h.keys hs.found).1
  have hin : ∀ {id : EntityId}, id ∈ t.selected → id ∈ (viewOf nodes t).nodes.map MemoryNode.id := by
    intro id hid
    rw [hids, Std.ExtTreeSet.mem_toList]
    exact hid
  have hworth := @worth_eq estimator nodes t h.keys hs.found
  exact
    { tokens := hworth.symm.trans_le (hs.paid.trans hs.within)
      seeds := fun seed hseed => hin (hs.seeds seed hseed)
      endpoints := fun fact hf =>
        (hs.endpoints fact (mem_sortedFacts.mp hf)).imp hin hin
      nodes := hids ▸ ascending_toList t.selected
      facts := sortedFacts_ascending h hs
      nodesOnce := hids ▸ (ascending_toList t.selected).nodup
      factsOnce := sortedFacts_nodup h hs }

theorem startSearch_missing (hp : Valid p) {seeds : List EntityId} {s : Search}
    (h : ∃ seed ∈ seeds, ¬ Vertex p request seed) :
    ∃ id, startSearch p request seeds s = .error (.missingEntity id) := by
  induction seeds generalizing s with
  | nil =>
      obtain ⟨seed, hseed, -⟩ := h
      exact absurd hseed List.not_mem_nil
  | cons first seeds ih =>
      rw [startSearch, scopedNode, visibleNode_eq hp, ok_bind]
      cases hs : (shown p request first).filter (nodeAllowed request) with
      | none => exact ⟨first.toString, rfl⟩
      | some node =>
          obtain ⟨seed, hseed, hno⟩ := h
          have hfirst : Vertex p request first := (vertex_iff hp).mpr ⟨node, Option.filter_eq_some_iff.mp hs⟩
          obtain rfl | hseed := List.mem_cons.mp hseed
          · exact absurd hfirst hno
          · exact ih ⟨seed, hseed, hno⟩

theorem compile_missing {Graph : Type} (projectGraph : MemoryView → Result Graph) (hp : Valid p)
    (h : ∃ seed ∈ request.seeds, ¬ Vertex p request seed) :
    ∃ id, compile projectGraph estimator p request = .error (.missingEntity id) := by
  have hne : request.seeds ≠ [] := by
    obtain ⟨seed, hseed, -⟩ := h
    exact List.ne_nil_of_mem hseed
  obtain ⟨id, hstart⟩ := @startSearch_missing p request hp (sortedSeeds request) ⟨∅, ∅, ∅, [], ∅⟩ (by
    obtain ⟨seed, hseed, hno⟩ := h
    exact ⟨seed, mem_sortedSeeds.mpr hseed, hno⟩)
  exact ⟨id, by rw [compile, throwIf_of_not hne, ok_bind, neighborhood, hstart, error_bind, error_bind]⟩

/-- What is compiled is within the budget, closed and in order, and nothing but seeds that cost too much
is reported as too small a budget. -/
theorem compile_within_budget (handed : List MemoryFact) (p : MemoryProjection) (hp : Obtained handed p)
    (crate : GraphCrate) (estimator : TokenEstimator) (request : ContextRequest) :
    (∀ bundle, compile (projectGraph crate) estimator p request = .ok bundle →
      WithinBudget estimator request bundle.view) ∧
    (∀ id, compile (projectGraph crate) estimator p request = .error (.missingEntity id) →
      ∃ seed ∈ request.seeds, ¬ Vertex p request seed) ∧
    ∀ required available,
      compile (projectGraph crate) estimator p request = .error (.budgetTooSmall required available) ↔
        (∀ seed ∈ request.seeds, Vertex p request seed) ∧ request.tokenBudget < seedTokens estimator p request ∧
          required = seedTokens estimator p request ∧ available = request.tokenBudget := by
  have hvalid := hp.valid.1
  by_cases hne : request.seeds = []
  · have hcompile : compile (projectGraph crate) estimator p request =
        .error (.invalidValue "context.seeds" "at least one seed is required") := by
      rw [compile, throwIf, if_pos hne, error_bind]
    have hnone : seedTokens estimator p request = 0 := by
      rw [seedTokens, hne]
      rfl
    rw [hcompile]
    refine ⟨by simp, by simp, fun required available => iff_of_false (by simp) fun h => ?_⟩
    rw [hnone] at h
    exact Nat.not_lt_zero _ h.2.1
  by_cases hseeds : ∀ seed ∈ request.seeds, Vertex p request seed
  · obtain ⟨found, candidates, hfound, hrank, hprepared, hshown⟩ := exists_prepared hvalid hseeds
    obtain ⟨hover, hfits⟩ := @compile_eq p request estimator _ (projectGraph crate) hne found candidates hfound hrank
      hprepared
    rw [seedCost_eq hshown] at hover hfits
    by_cases hsmall : request.tokenBudget < seedTokens estimator p request
    · rw [hover hsmall]
      refine ⟨by simp, by simp, fun required available => ?_⟩
      rw [Except.error.injEq, MemoryError.budgetTooSmall.injEq, eq_comm, and_congr_right fun _ => eq_comm]
      exact ⟨fun h => ⟨hseeds, hsmall, h⟩, fun h => h.2.2⟩
    · obtain ⟨t, -, hspends, hcompile⟩ := hfits hsmall
      have hview := viewOf_within hprepared hspends
      have hfails := projectGraph_fails crate hview.endpoints fun fact hf =>
        hprepared.evidenced fact (hspends.facts.subset (mem_sortedFacts.mp hf))
      rw [hcompile]
      cases hgraph : projectGraph crate (viewOf found.nodes t) with
      | ok graph =>
          refine ⟨fun bundle hbundle => ?_, by simp [Except.map], fun required available =>
            iff_of_false (by simp [Except.map]) fun h => hsmall h.2.1⟩
          obtain rfl := Except.ok.inj hbundle
          exact hview
      | error e =>
          obtain ⟨reason, rfl⟩ := hfails.of_error hgraph
          exact ⟨by simp [Except.map], by simp [Except.map], fun required available =>
            iff_of_false (by simp [Except.map]) fun h => hsmall h.2.1⟩
  · have hmissing : ∃ seed ∈ request.seeds, ¬ Vertex p request seed := by
      simpa using hseeds
    obtain ⟨id, hcompile⟩ := @compile_missing p request estimator _ (projectGraph crate) hvalid hmissing
    rw [hcompile]
    exact ⟨by simp, fun _ _ => hmissing, fun required available => iff_of_false (by simp) fun h => hseeds h.1⟩

/-- A graph crate that accepts everything, and an estimator that counts texts. -/
def lenientCrate : GraphCrate where
  NodeKind := Unit
  EdgeKind := Unit
  EvidenceKind := Unit
  NodeId := Unit
  Node := Unit
  Provenance := Unit
  Edge := Unit
  Graph := Unit
  nodeKind := fun _ => .ok ()
  edgeKind := fun _ => .ok ()
  evidenceKind := fun _ => .ok ()
  newNode := fun _ _ _ => .ok ()
  nodeId := fun _ => ()
  nodeAttribute := fun _ _ _ => ()
  newProvenance := fun _ _ _ => .ok ()
  withDetail := fun _ _ => ()
  newEdge := fun _ _ _ _ => ()
  edgeAttribute := fun _ _ _ => ()
  tryFromSortedNodes := fun _ _ => .ok ()

def countingTexts : TokenEstimator := ⟨fun _ => 1, "texts"⟩

theorem compile_within_budget_of_task :
    compile (projectGraph lenientCrate) countingTexts (applyAll ⟨1, 2⟩ overconfidentLog)
      { aroundTask with tokenBudget := 8 } = .error (.budgetTooSmall 9 8) := by
  refine ((compile_within_budget [overconfident] (applyAll ⟨1, 2⟩ overconfidentLog) obtained_overconfident lenientCrate
    countingTexts { aroundTask with tokenBudget := 8 }).2.2 9 8).mpr ⟨?_, by decide +kernel, by decide +kernel, rfl⟩
  exact List.forall_mem_singleton.mpr ⟨Common.node Common.task, ⟨by decide +kernel, rfl⟩, by decide +kernel⟩

end WeavatrixMemory.Context.Bundles
