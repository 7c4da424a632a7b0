import WeavatrixMemory.Context.Dependence
import WeavatrixMemory.Context.Fusion

namespace WeavatrixMemory.Context.Retrieved

open Error Identity Domain Outcome Projection.State Projection.Memory Projection.Invariant Retrieval Fusion Compiler
open Breadth
open Neighborhood Budget Bundles Dependence GraphProjection Snapshot.Routes

structure RetrievedContextBundle (Graph : Type) where
  context : ContextBundle Graph
  retrieval : List FusedRetrievalHit

/-- `From<RetrievalError> for MemoryError`. -/
def ofRetrieval {α : Type} : RetrievalResult α → Result α
  | .ok a => .ok a
  | .error e => .error (.retrieval e.provider e.message)

def visibleSeeds (p : MemoryProjection) (request : ContextRequest) : List FusedRetrievalHit → Result (List EntityId)
  | [] => .ok []
  | hit :: rest => do
      let node ← visibleNode p hit.entity request.knownAt
      let seeds ← visibleSeeds p request rest
      .ok (if node.isSome then hit.entity :: seeds else seeds)

def compileWithRetrieval {Graph : Type} (projectGraph : MemoryView → Result Graph) (estimator : TokenEstimator)
    (p : MemoryProjection) (request : ContextRequest) (query : RetrievalQuery) (providers : List RetrievalProvider) :
    Result (RetrievedContextBundle Graph) := do
  let retrieval ← ofRetrieval (fuseRetrieval providers query)
  let seeds ← visibleSeeds p request retrieval
  throwIf (seeds = []) (.retrieval "fusion" "no retrieved entity exists in this projection")
  let context ← compile projectGraph estimator p { request with seeds := seeds }
  .ok ⟨context, retrieval⟩

variable {p q : MemoryProjection} {request : ContextRequest} {query : RetrievalQuery}
  {providers : List RetrievalProvider} {hits : List FusedRetrievalHit} {estimator : TokenEstimator} {Graph : Type}
  {projectGraph : MemoryView → Result Graph}

def knownEntities (p : MemoryProjection) (request : ContextRequest) (hits : List FusedRetrievalHit) : List EntityId :=
  (hits.map (·.entity)).filter fun id => (shown p request id).isSome

theorem visibleSeeds_eq (hp : Valid p) (hits : List FusedRetrievalHit) :
    visibleSeeds p request hits = .ok (knownEntities p request hits) := by
  induction hits with
  | nil => rfl
  | cons hit rest ih =>
      have hcons : knownEntities p request (hit :: rest) =
          if (shown p request hit.entity).isSome then hit.entity :: knownEntities p request rest
          else knownEntities p request rest := List.filter_cons
      rw [visibleSeeds, visibleNode_eq hp, ok_bind, ih, ok_bind, hcons]

theorem compileWithRetrieval_eq (hp : Valid p) (h : fuseRetrieval providers query = .ok hits) :
    compileWithRetrieval projectGraph estimator p request query providers =
      if knownEntities p request hits = [] then
        .error (.retrieval "fusion" "no retrieved entity exists in this projection")
      else (compile projectGraph estimator p { request with seeds := knownEntities p request hits }).map fun context =>
        ⟨context, hits⟩ := by
  rw [compileWithRetrieval, h, ofRetrieval, ok_bind, visibleSeeds_eq hp, ok_bind]
  by_cases hnone : knownEntities p request hits = []
  · rw [throwIf, if_pos hnone, if_pos hnone, error_bind]
  · rw [throwIf_of_not hnone, if_neg hnone, ok_bind]
    cases compile projectGraph estimator p { request with seeds := knownEntities p request hits } with
    | ok context => rfl
    | error e => rfl

theorem startSearch_first (hp : Valid p) {before after : List EntityId} {id : EntityId} {s : Search}
    (hbefore : ∀ seed ∈ before, Vertex p request seed) (hid : ¬ Vertex p request id) :
    startSearch p request (before ++ id :: after) s = .error (.missingEntity id.toString) := by
  induction before generalizing s with
  | nil =>
      have hfilter : (shown p request id).filter (nodeAllowed request) = none := by
        refine Option.eq_none_iff_forall_ne_some.mpr fun node hn => hid ?_
        exact (vertex_iff hp).mpr ⟨node, Option.filter_eq_some_iff.mp hn⟩
      rw [List.nil_append, startSearch, scopedNode, visibleNode_eq hp, ok_bind, hfilter]
      rfl
  | cons first before ih =>
      obtain ⟨node, hs, hn⟩ := (vertex_iff hp).mp (hbefore first List.mem_cons_self)
      rw [List.cons_append, startSearch, scopedNode_eq hp hs hn, ok_bind]
      exact ih fun seed hseed => hbefore seed (List.mem_cons_of_mem _ hseed)

theorem compile_missing_least (hp : Valid p) {id : EntityId} (hmem : id ∈ request.seeds) (hid : ¬ Vertex p request id)
    (hleast : ∀ other ∈ request.seeds, ¬ Vertex p request other → (compare id other).isLE = true) :
    compile projectGraph estimator p request = .error (.missingEntity id.toString) := by
  obtain ⟨before, after, hsplit⟩ := List.append_of_mem (mem_sortedSeeds.mpr hmem)
  have hbefore : ∀ seed ∈ before, Vertex p request seed := by
    intro seed hseed
    by_contra hno
    have hascending := sortedSeeds_ascending request
    rw [hsplit] at hascending
    have hlt : compare seed id = .lt :=
      (List.pairwise_append.mp hascending).2.2 seed hseed id List.mem_cons_self
    have hseeds : seed ∈ request.seeds :=
      mem_sortedSeeds.mp (hsplit ▸ List.mem_append_left _ hseed)
    have hle := hleast seed hseeds hno
    rw [Std.OrientedCmp.gt_of_lt hlt] at hle
    cases hle
  rw [compile, throwIf_of_not (List.ne_nil_of_mem hmem), ok_bind, neighborhood, hsplit,
    startSearch_first hp hbefore hid, error_bind, error_bind]

/-- What a context holds: it is within the budget, and around its seeds. -/
structure Around (estimator : TokenEstimator) (p : MemoryProjection) (request : ContextRequest) (view : MemoryView) :
    Prop where
  within : WithinBudget estimator request view
  shown : ∀ node ∈ view.nodes, Vertex p request node.id ∧ Shown p request node.id node
  reached : ∀ node ∈ view.nodes, ∃ n ≤ request.maxDepth, Distance (Adjacent p request) (· ∈ request.seeds) n node.id
  edges : ∀ fact ∈ view.facts, Edge p request fact

theorem compile_around (hp : Valid p) (hne : request.seeds ≠ [])
    (hseeds : ∀ seed ∈ request.seeds, Vertex p request seed)
    (hfits : ¬ request.tokenBudget < seedTokens estimator p request) (crate : GraphCrate) :
    Holds (fun bundle => Around estimator p request bundle.view) (fun e => ∃ reason, e = .graph reason)
      (compile (GraphProjection.projectGraph crate) estimator p request) := by
  obtain ⟨found, candidates, hfound, hrank, hprepared, hshown⟩ := exists_prepared hp hseeds
  obtain ⟨s, hneighborhood, hs, hq⟩ := neighborhood_found hp hseeds
  obtain rfl : found = Neighborhood.Search.found s := Except.ok.inj (hfound.symm.trans hneighborhood)
  obtain ⟨-, hcompiled⟩ :=
    @compile_eq p request estimator _ (GraphProjection.projectGraph crate) hne _ candidates hfound
    hrank hprepared
  rw [seedCost_eq hshown] at hcompiled
  obtain ⟨t, -, hspends, hcompile⟩ := hcompiled hfits
  have hview := viewOf_within hprepared hspends
  have hfails := projectGraph_fails crate hview.endpoints fun fact hf =>
    hprepared.evidenced fact (hspends.facts.subset (mem_sortedFacts.mp hf))
  have hnodes : ∀ node ∈ (viewOf (Neighborhood.Search.found s).nodes t).nodes,
      s.distances.contains node.id = true ∧ Shown p request node.id node := by
    intro node hn
    obtain ⟨id, -, hget⟩ := List.mem_filterMap.mp hn
    obtain rfl := hprepared.keys id node hget
    exact (hs.gathered.node_iff hp).mp hget
  have hfacts : ∀ fact ∈ (Neighborhood.Search.found s).facts.toList.map (·.2), s.facts[fact.id]? = some fact ∧
      s.distances.contains fact.source = true ∧ s.distances.contains fact.target = true := by
    intro fact hf
    obtain ⟨⟨id, other⟩, he, rfl⟩ := List.mem_map.mp hf
    have hget := found_facts_iff.mp (Std.ExtTreeMap.mem_toList_iff_getElem?_eq_some.mp he)
    rw [(hs.gathered.facts id other hget.1).1]
    exact hget
  have hcandidates := (Bounds.rankCandidates_holds fun fact hf => (hfacts fact hf).2).of_ok hrank
  rw [hcompile]
  cases hgraph : GraphProjection.projectGraph crate (viewOf (Neighborhood.Search.found s).nodes t) with
  | error e => exact hfails.of_error hgraph
  | ok graph =>
      refine ⟨hview, fun node hn => ⟨hs.gathered.vertices _ (hnodes node hn).1, (hnodes node hn).2⟩, fun node hn => ?_,
        fun fact hf => ?_⟩
      · obtain ⟨n, hdistance⟩ := contains_iff.mp (hnodes node hn).1
        obtain ⟨hexact, hle⟩ := (hs.layered.exact hq node.id n).mp hdistance
        exact ⟨n, hle, hexact⟩
      · exact (hs.gathered.facts fact.id fact (hfacts fact (hcandidates fact (hspends.facts.subset
          (mem_sortedFacts.mp hf)))).1).2

section Seeds

variable {seeds seeds' : List EntityId}

theorem sortedSeeds_congr (h : ∀ id, id ∈ seeds ↔ id ∈ seeds') :
    sortedSeeds { request with seeds := seeds } = sortedSeeds { request with seeds := seeds' } := by
  have hleft := sortedSeeds_ascending { request with seeds := seeds }
  have hright := sortedSeeds_ascending { request with seeds := seeds' }
  have hperm : (sortedSeeds { request with seeds := seeds }).Perm (sortedSeeds { request with seeds := seeds' }) := by
    refine (List.perm_ext_iff_of_nodup hleft.nodup hright.nodup).mpr fun id => ?_
    rw [mem_sortedSeeds, mem_sortedSeeds]
    exact h id
  refine hperm.eq_of_pairwise (fun a b _ _ hab hba => ?_) hleft hright
  rw [Std.OrientedCmp.gt_of_lt hba] at hab
  cases hab

theorem startSearch_seeds (from_ : List EntityId) (s : Search) :
    startSearch p { request with seeds := seeds } from_ s = startSearch p { request with seeds := seeds' } from_ s := by
  induction from_ generalizing s with
  | nil => rfl
  | cons seed rest ih =>
      rw [startSearch, startSearch]
      exact congrArg _ (funext fun node => ih _)

theorem searchLoop_seeds (rounds : Nat) (s : Search) :
    searchLoop p { request with seeds := seeds } rounds s = searchLoop p { request with seeds := seeds' } rounds s := by
  induction rounds generalizing s with
  | zero => rfl
  | succ rounds ih =>
      rw [searchLoop, searchLoop]
      cases s.queue with
      | nil => rfl
      | cons current rest =>
          exact congrArg _ (funext fun depth => congrArg _ (funext fun ids => congrArg _ (funext ih)))

theorem neighborhood_seeds (h : ∀ id, id ∈ seeds ↔ id ∈ seeds') :
    neighborhood p { request with seeds := seeds } = neighborhood p { request with seeds := seeds' } := by
  have hstart := @startSearch_seeds p request seeds seeds'
  have hsearch := @searchLoop_seeds p request seeds seeds'
  simp only [neighborhood, sortedSeeds_congr h, hstart, hsearch]

/-- A context depends on the set of its seeds: not on their order, nor on how often one is named. -/
theorem compile_seeds (h : ∀ id, id ∈ seeds ↔ id ∈ seeds') :
    compile projectGraph estimator p { request with seeds := seeds } =
      compile projectGraph estimator p { request with seeds := seeds' } := by
  have hselect (nodes : BTreeMap EntityId MemoryNode) : selectSeeds estimator { request with seeds := seeds } nodes =
      selectSeeds estimator { request with seeds := seeds' } nodes := by
    rw [selectSeeds, selectSeeds, sortedSeeds_congr h]
  by_cases hnone : seeds = []
  · obtain rfl : seeds' = [] := by
      rw [List.eq_nil_iff_forall_not_mem] at hnone ⊢
      exact fun id hid => hnone id ((h id).mpr hid)
    rw [hnone]
  · have hnone' : seeds' ≠ [] := by
      obtain ⟨seed, hseed⟩ := List.exists_mem_of_ne_nil seeds hnone
      exact List.ne_nil_of_mem ((h seed).mp hseed)
    have hsome (more : List EntityId) (hne : more ≠ []) (e : MemoryError) :
        throwIf (({ request with seeds := more } : ContextRequest).seeds = []) e = .ok () := throwIf_of_not hne e
    rw [compile, compile, hsome seeds hnone, hsome seeds' hnone', neighborhood_seeds h, ok_bind, ok_bind]
    refine congrArg _ (funext fun found => ?_)
    rw [hselect]
    rfl

end Seeds

/-- What becomes of a query: the error of a provider, or the context around those retrieved entities that are known at
the time, whatever the request had for seeds. One of them that is out of scope is an error. -/
theorem retrieved_context_exact {handed : List MemoryFact} (hp : Obtained handed p) (crate : GraphCrate)
    (estimator : TokenEstimator) (request : ContextRequest) (query : RetrievalQuery)
    (providers : List RetrievalProvider) (answer : Result (RetrievedContextBundle crate.Graph))
    (hanswer : answer = compileWithRetrieval (GraphProjection.projectGraph crate) estimator p request query providers) :
    (∀ e, fuseRetrieval providers query = .error e → answer = .error (.retrieval e.provider e.message)) ∧
    ∀ hits, fuseRetrieval providers query = .ok hits → WellFormed providers query hits ∧
      (knownEntities p request hits = [] →
        answer = .error (.retrieval "fusion" "no retrieved entity exists in this projection")) ∧
      ∀ exact, exact = { request with seeds := knownEntities p request hits } → exact.seeds ≠ [] →
        (∀ id ∈ exact.seeds, ¬ Vertex p exact id →
          (∀ other ∈ exact.seeds, ¬ Vertex p exact other → (compare id other).isLE = true) →
          answer = .error (.missingEntity id.toString)) ∧
        ((∀ id ∈ exact.seeds, Vertex p exact id) →
          (exact.tokenBudget < seedTokens estimator p exact →
            answer = .error (.budgetTooSmall (seedTokens estimator p exact) exact.tokenBudget)) ∧
          (¬ exact.tokenBudget < seedTokens estimator p exact →
            Holds (fun bundle => bundle.retrieval = hits ∧ Around estimator p exact bundle.context.view)
              (fun e => ∃ reason, e = .graph reason) answer)) := by
  have hvalid := hp.valid.1
  subst hanswer
  refine ⟨fun e he => ?_, fun hits hhits => ⟨fuseRetrieval_wellFormed hhits, fun hnone => ?_, ?_⟩⟩
  · rw [compileWithRetrieval, he]
    rfl
  · rw [compileWithRetrieval_eq hvalid hhits, if_pos hnone]
  · rintro exact hexact hne
    have hsome : knownEntities p request hits ≠ [] := by rwa [hexact] at hne
    rw [compileWithRetrieval_eq hvalid hhits, if_neg hsome, ← hexact]
    refine ⟨fun id hid hno hleast => ?_, fun hseeds => ⟨fun hsmall => ?_, fun hfits => ?_⟩⟩
    · rw [compile_missing_least hvalid hid hno hleast]
      rfl
    · obtain ⟨found, candidates, hfound, hrank, hprepared, hshown⟩ := exists_prepared hvalid hseeds
      obtain ⟨hover, -⟩ :=
        @compile_eq p exact estimator _ (GraphProjection.projectGraph crate) hne found candidates hfound
        hrank hprepared
      rw [seedCost_eq hshown] at hover
      rw [hover hsmall]
      rfl
    · have haround := compile_around hvalid hne hseeds hfits crate
      cases hcompile : compile (GraphProjection.projectGraph crate) estimator p exact with
      | error e => exact haround.of_error hcompile
      | ok context => exact ⟨rfl, haround.of_ok hcompile⟩

def template : ContextRequest := ⟨[], Common.ts 20, Common.ts 30, 100, 2, ∅, ∅, ∅⟩

theorem retrieved_context_exact_task : ContextRequest.forRetrieval (Common.ts 20) (Common.ts 30) 100 = .ok template ∧
    ∃ bundle, compileWithRetrieval (GraphProjection.projectGraph lenientCrate) BytesTokenEstimator.default.estimator
        (applyAll ⟨1, 2⟩ taskFirst) template firstQuery [single Common.taskKind] = .ok bundle ∧
      Around BytesTokenEstimator.default.estimator (applyAll ⟨1, 2⟩ taskFirst)
        { template with seeds := [Common.task] } bundle.context.view := by
  have hobtained : Obtained (recordedIn taskFirst) (applyAll ⟨1, 2⟩ taskFirst) :=
    obtained_of_allAccepted (by decide +kernel) rfl
  have hfused : fuseRetrieval [single Common.taskKind] firstQuery =
      .ok [⟨Common.task, 16393442, [⟨Common.taskKind, .literal, 1, 1⟩]⟩] := by decide +kernel
  have hknown : knownEntities (applyAll ⟨1, 2⟩ taskFirst) template
      [⟨Common.task, 16393442, [⟨Common.taskKind, .literal, 1, 1⟩]⟩] = [Common.task] := by decide +kernel
  obtain ⟨-, -, h⟩ := (retrieved_context_exact hobtained lenientCrate BytesTokenEstimator.default.estimator template
    firstQuery [single Common.taskKind] _ rfl).2 _ hfused
  have hseeds : ∀ id ∈ [Common.task], Vertex (applyAll ⟨1, 2⟩ taskFirst) { template with seeds := [Common.task] } id :=
    List.forall_mem_singleton.mpr ⟨Common.node Common.task, ⟨by decide +kernel, rfl⟩, by decide +kernel⟩
  have haround :=
    ((h { template with seeds := [Common.task] } (by rw [hknown]) (by decide)).2 hseeds).2 (by decide +kernel)
  have hok : (compileWithRetrieval (GraphProjection.projectGraph lenientCrate) BytesTokenEstimator.default.estimator
      (applyAll ⟨1, 2⟩ taskFirst) template firstQuery [single Common.taskKind]).isOk = true := by decide +kernel
  obtain ⟨bundle, hbundle⟩ := exists_ok_of_isOk hok
  exact ⟨by rfl, bundle, hbundle, (haround.of_ok hbundle).2⟩

theorem knownEntities_iff {id : EntityId} :
    id ∈ knownEntities p request hits ↔ id ∈ hits.map (·.entity) ∧ (shown p request id).isSome = true :=
  List.mem_filter

theorem knownEntities_eq (h : SameView p q request) (hits : List FusedRetrievalHit) :
    knownEntities p request hits = knownEntities q request hits := by
  rw [knownEntities, knownEntities, funext h.shown_eq]

theorem compileWithRetrieval_sameView (h : SameView p q request)
    (hposition : p.lastGlobalPosition = q.lastGlobalPosition)
    (projectGraph : MemoryView → Result Graph) (estimator : TokenEstimator) (query : RetrievalQuery)
    (providers : List RetrievalProvider) :
    compileWithRetrieval projectGraph estimator p request query providers =
      compileWithRetrieval projectGraph estimator q request query providers := by
  cases hfused : fuseRetrieval providers query with
  | error e => rw [compileWithRetrieval, compileWithRetrieval, hfused, ofRetrieval, error_bind, error_bind]
  | ok hits =>
      have hexact : SameView p q { request with seeds := knownEntities q request hits } :=
        ⟨h.left, h.right, h.nodes, h.facts⟩
      rw [compileWithRetrieval_eq h.left hfused, compileWithRetrieval_eq h.right hfused, knownEntities_eq h,
        hexact.compile_eq hposition]

/-- What is retrieved around is the set of known entities that the providers name: the order of the providers and of
their hits, the ranks, the log behind the projection and the seeds of the request make no difference to the context. -/
theorem retrieved_context_stable {handed handed' : List MemoryFact} (hp : Obtained handed p) (hq : Obtained handed' q)
    (hnodes : (viewRef p (clockOf request)).nodes.Perm (viewRef q (clockOf request)).nodes)
    (hfacts : (viewRef p (clockOf request)).facts.Perm (viewRef q (clockOf request)).facts)
    (hposition : p.lastGlobalPosition = q.lastGlobalPosition) (crate : GraphCrate) (estimator : TokenEstimator)
    (query : RetrievalQuery) (providers : List RetrievalProvider) :
    (∀ others, Rearranged query providers others →
      compileWithRetrieval (GraphProjection.projectGraph crate) estimator q request query others =
        compileWithRetrieval (GraphProjection.projectGraph crate) estimator p request query providers) ∧
    ∀ query' others hits hits' seeds, fuseRetrieval providers query = .ok hits →
      fuseRetrieval others query' = .ok hits' → (∀ id, id ∈ hits.map (·.entity) ↔ id ∈ hits'.map (·.entity)) →
      (compileWithRetrieval (GraphProjection.projectGraph crate) estimator q { request with seeds := seeds } query'
          others).map (·.context) =
        (compileWithRetrieval (GraphProjection.projectGraph crate) estimator p request query providers).map
          (·.context) := by
  have hsame : SameView p q request := ⟨hp.valid.1, hq.valid.1, hnodes, hfacts⟩
  refine ⟨fun others hothers => ?_, fun query' others hits hits' seeds hhits hhits' hset => ?_⟩
  · rw [compileWithRetrieval_sameView hsame hposition, compileWithRetrieval, compileWithRetrieval,
      fuseRetrieval_congr hothers.outcomes]
  · have hknown (id : EntityId) :
        id ∈ knownEntities q { request with seeds := seeds } hits' ↔ id ∈ knownEntities q request hits := by
      rw [knownEntities_iff, knownEntities_iff, hset id]
      rfl
    have hnone : knownEntities q { request with seeds := seeds } hits' = [] ↔ knownEntities q request hits = [] := by
      rw [List.eq_nil_iff_forall_not_mem, List.eq_nil_iff_forall_not_mem]
      exact forall_congr' fun id => not_congr (hknown id)
    rw [compileWithRetrieval_sameView hsame hposition, compileWithRetrieval_eq hsame.right hhits,
      compileWithRetrieval_eq hsame.right hhits']
    by_cases hempty : knownEntities q request hits = []
    · rw [if_pos hempty, if_pos (hnone.mpr hempty)]
    · have hcompile := @compile_seeds q request estimator _ (GraphProjection.projectGraph crate) _ _ hknown
      rw [if_neg hempty, if_neg (mt hnone.mp hempty), ← hcompile]
      cases compile (GraphProjection.projectGraph crate) estimator q _ with
      | ok context => rfl
      | error e => rfl

theorem retrieved_context_stable_swapped :
    compileWithRetrieval (GraphProjection.projectGraph lenientCrate) countingTexts
        (applyAll ⟨3, 4⟩ fileFirst) aroundTask
        firstQuery [semantic, single Common.taskKind] =
      compileWithRetrieval (GraphProjection.projectGraph lenientCrate) countingTexts
        (applyAll ⟨1, 2⟩ taskFirst) aroundTask
        firstQuery [single Common.taskKind, semantic] := by
  have hleft : Obtained (recordedIn taskFirst) (applyAll ⟨1, 2⟩ taskFirst) :=
    obtained_of_allAccepted (by decide +kernel) rfl
  have hright : Obtained (recordedIn fileFirst) (applyAll ⟨3, 4⟩ fileFirst) :=
    obtained_of_allAccepted (by decide +kernel) rfl
  have hsame (provider : RetrievalProvider) (h : ∃ hits, provider.retrieve firstQuery = .ok hits) :
      SameHits firstQuery provider provider := by
    obtain ⟨hits, h⟩ := h
    refine ⟨rfl, ?_⟩
    rw [h]
    exact List.Perm.refl _
  exact (retrieved_context_stable hleft hright (by decide +kernel) (by decide +kernel) (by decide +kernel) lenientCrate
    countingTexts firstQuery [single Common.taskKind, semantic]).1 _
    ⟨_, List.Perm.swap _ _ _, .cons (hsame _ ⟨_, rfl⟩) (.cons (hsame _ ⟨_, rfl⟩) .nil)⟩

end WeavatrixMemory.Context.Retrieved
