import WeavatrixMemory.Context.Neighborhood
import WeavatrixMemory.GraphProjection
import WeavatrixMemory.Snapshot.Routes

namespace WeavatrixMemory.Context.Bounds

open Error Identity Domain Projection.State Projection.Memory Projection.Admission Projection.Invariant
open Projection.Rebuild Projection.Parts Snapshot.Compact Snapshot.Routes Compiler Neighborhood GraphProjection Outcome

variable {p : MemoryProjection} {request : ContextRequest}

theorem safe_of_holds {α : Type} {good : α → Prop} {x : Result α} (h : Holds good (· ≠ .panicked) x) : Safe x :=
  fun he => h.of_error he rfl

theorem holds_of_safe {α : Type} {x : Result α} (h : Safe x) : Holds (fun a => x = .ok a) (· ≠ .panicked) x := by
  cases x with
  | ok a => exact rfl
  | error e => exact fun he => h (congrArg Except.error he)

theorem indexMap_holds {κ β : Type} [Ord κ] [Std.TransOrd κ] {m : BTreeMap κ β} {key : κ} (h : m.contains key = true) :
    Holds (fun value => m[key]? = some value) (· ≠ .panicked) (indexMap m key) := by
  rw [Std.ExtTreeMap.contains_eq_isSome_getElem?] at h
  rw [indexMap]
  cases hk : m[key]? with
  | none =>
      rw [hk] at h
      cases h
  | some value => exact rfl

theorem startSearch_holds (hp : Valid p) {seeds : List EntityId} {s : Search} :
    Holds (fun _ => ∀ seed ∈ seeds, Vertex p request seed) (· ≠ .panicked) (startSearch p request seeds s) := by
  induction seeds generalizing s with
  | nil => exact fun _ h => absurd h List.not_mem_nil
  | cons seed seeds ih =>
      rw [startSearch, scopedNode, visibleNode_eq hp, ok_bind]
      cases hs : (shown p request seed).filter (nodeAllowed request) with
      | none => exact missingEntity_ne_panicked _
      | some node =>
          have hvertex : Vertex p request seed := (vertex_iff hp).mpr ⟨node, Option.filter_eq_some_iff.mp hs⟩
          exact ih.mono (fun _ h => List.forall_mem_cons.mpr ⟨hvertex, h⟩) fun _ h => h

theorem neighborhood_holds (hp : Valid p) :
    Holds (fun found => ∃ s, found = Search.found s ∧ Gathered p request s) (· ≠ .panicked)
      (neighborhood p request) := by
  have hstart := @startSearch_holds p request hp (sortedSeeds request) ⟨∅, ∅, ∅, [], ∅⟩
  cases hs : startSearch p request (sortedSeeds request) ⟨∅, ∅, ∅, [], ∅⟩ with
  | error e =>
      rw [neighborhood, hs]
      exact hstart.of_error hs
  | ok first =>
      obtain ⟨s, hfound, hsearching, -⟩ := neighborhood_found hp fun seed hseed =>
        hstart.of_ok hs seed (mem_sortedSeeds.mpr hseed)
      rw [hfound]
      exact ⟨s, rfl, hsearching.gathered⟩

theorem chargeSeeds_holds (estimator : TokenEstimator) {nodes : BTreeMap EntityId MemoryNode} {seeds : List EntityId}
    {selected : BTreeSet EntityId} {used : Nat} (h : ∀ id ∈ selected, nodes.contains id = true) :
    Holds (fun r => ∀ id ∈ r.1, nodes.contains id = true) (· ≠ .panicked)
      (chargeSeeds estimator nodes seeds selected used) := by
  induction seeds generalizing selected used with
  | nil => exact h
  | cons seed seeds ih =>
      rw [chargeSeeds]
      cases hs : nodes[seed]? with
      | none => exact missingEntity_ne_panicked _
      | some node =>
          refine ih fun id hid => ?_
          obtain rfl | hid := (mem_insert _ _ _).mp hid
          · rw [Std.ExtTreeMap.contains_eq_isSome_getElem?, hs]
            rfl
          · exact h id hid

theorem selectSeeds_holds (estimator : TokenEstimator) {nodes : BTreeMap EntityId MemoryNode} :
    Holds (fun r => ∀ id ∈ r.1, nodes.contains id = true) (· ≠ .panicked) (selectSeeds estimator request nodes) := by
  have hcharge := @chargeSeeds_holds estimator nodes (sortedSeeds request) ∅ 0 fun id hid => by simp at hid
  refine hcharge.bind fun r hr => Holds.check (fun e he => ?_) fun _ _ => hr
  obtain ⟨-, rfl⟩ := throwIf_eq_error.mp he
  simp

theorem rankCandidates_holds {distances : BTreeMap EntityId Nat} {candidates : List MemoryFact}
    (h : ∀ fact ∈ candidates, distances.contains fact.source = true ∧ distances.contains fact.target = true) :
    Holds (fun facts => ∀ fact ∈ facts, fact ∈ candidates) (· ≠ .panicked) (rankCandidates distances candidates) := by
  have hkeyed := @Holds.mapM MemoryError MemoryFact (Priority × MemoryFact) (fun e => e.2 ∈ candidates) (· ≠ .panicked)
    (fun fact => do let key ← priority distances fact; .ok (key, fact)) candidates fun fact hf => by
      obtain ⟨hs, ht⟩ := h fact hf
      have hpriority : Holds (fun _ => True) (· ≠ .panicked) (priority distances fact) :=
        (indexMap_holds hs).bind fun _ _ => (indexMap_holds ht).bind fun _ _ => trivial
      exact hpriority.bind fun key _ => hf
  refine hkeyed.bind fun keyed hk fact hf => ?_
  obtain ⟨e, he, rfl⟩ := List.mem_map.mp hf
  exact hk e (List.mem_mergeSort.mp he)

structure Selects (nodes : BTreeMap EntityId MemoryNode) (candidates : List MemoryFact) (s : Selection) : Prop where
  selected : ∀ id ∈ s.selected, nodes.contains id = true
  facts : ∀ fact ∈ s.facts, fact ∈ candidates

theorem selectFact_holds (estimator : TokenEstimator) {nodes : BTreeMap EntityId MemoryNode}
    {candidates : List MemoryFact} {fact : MemoryFact} (hf : fact ∈ candidates)
    (hends : nodes.contains fact.source = true ∧ nodes.contains fact.target = true) {s : Selection}
    (h : Selects nodes candidates s) :
    Holds (Selects nodes candidates) (· ≠ .panicked) (selectFact estimator request nodes s fact) := by
  have hmissing : ∀ id ∈ [fact.source, fact.target].filter (fun id => !s.selected.contains id),
      nodes.contains id = true := by
    intro id hid
    obtain rfl | hid := List.mem_cons.mp (List.mem_of_mem_filter hid)
    · exact hends.1
    · rw [List.mem_singleton.mp hid]
      exact hends.2
  have hcosts := @Holds.mapM MemoryError EntityId Nat (fun _ => True) (· ≠ .panicked)
    (fun id => do let node ← indexMap nodes id; .ok (nodeTokens estimator node)) _
    fun id hid => (indexMap_holds (hmissing id hid)).bind fun _ _ => trivial
  rw [selectFact]
  refine hcosts.bind fun costs _ => ?_
  dsimp only
  split
  · exact ⟨h.selected, h.facts⟩
  · refine ⟨fun id hid => ?_, List.forall_mem_append.mpr ⟨h.facts, List.forall_mem_singleton.mpr hf⟩⟩
    obtain hid | hid := mem_insertAll.mp hid
    · exact hmissing id hid
    · exact h.selected id hid

theorem safe_ofGraph {α : Type} (x : Except String α) : Safe (ofGraph x) := by
  cases x with
  | ok a => exact safe_ok a
  | error reason => exact safe_error (by simp)

theorem safe_projectNodes (crate : GraphCrate) (nodes : List MemoryNode) (ids : BTreeMap EntityId crate.NodeId) :
    Safe (projectNodes crate nodes ids) := by
  induction nodes generalizing ids with
  | nil => exact safe_ok _
  | cons node nodes ih =>
      have hnode : Safe (projectNode crate node) :=
        (safe_ofGraph _).bind fun _ _ => (safe_ofGraph _).bind fun _ _ => safe_ok _
      exact hnode.bind fun _ _ => (ih _).bind fun _ _ => safe_ok _

theorem safe_projectFact (crate : GraphCrate) (ids : BTreeMap EntityId crate.NodeId) {fact : MemoryFact}
    (h : fact.evidence.items ≠ []) : Safe (projectFact crate ids fact) := by
  have hendpoint : ∀ id, Safe (endpoint crate ids id) := by
    intro id
    rw [endpoint]
    split
    · exact safe_ok _
    · exact safe_error (by simp)
  have hprimary : Safe (getAt fact.evidence.items 0) := by
    obtain ⟨item, rest, hitems⟩ := List.exists_cons_of_ne_nil h
    rw [getAt_eq_ok.mpr (show fact.evidence.items[0]? = some item by rw [hitems]; rfl)]
    exact safe_ok item
  exact (hendpoint _).bind fun _ _ => (hendpoint _).bind fun _ _ => hprimary.bind fun _ _ =>
    (safe_ofGraph _).bind fun _ _ => (safe_ofGraph _).bind fun _ _ => (safe_ofGraph _).bind fun _ _ => safe_ok _

theorem safe_projectGraph (crate : GraphCrate) {view : MemoryView} (h : ∀ fact ∈ view.facts, fact.evidence.items ≠ []) :
    Safe (projectGraph crate view) := by
  refine (safe_projectNodes crate _ _).bind fun r _ => ?_
  have hedges := @Holds.mapM MemoryError MemoryFact crate.Edge (fun _ => True) (· ≠ .panicked)
    (projectFact crate r.2) view.facts fun fact hf =>
      (holds_of_safe (safe_projectFact crate r.2 (h fact hf))).mono (fun _ _ => trivial) fun _ h => h
  exact (safe_of_holds hedges).bind fun _ _ => safe_ofGraph _

/-- The compiler indexes its maps with keys that the search has put there, and the evidence of a fact
with the position of an item that each fact has. -/
theorem safe_compile (hp : Valid p) (crate : GraphCrate) (estimator : TokenEstimator) (request : ContextRequest) :
    Safe (compile (projectGraph crate) estimator p request) := by
  suffices h :
      Holds (fun _ => True) (· ≠ .panicked) (compile (projectGraph crate) estimator p request) from safe_of_holds h
  rw [compile]
  refine Holds.check (fun e he => ?_) fun _ _ => ?_
  · obtain ⟨-, rfl⟩ := throwIf_eq_error.mp he
    simp
  refine (@neighborhood_holds p request hp).bind fun found hfound => ?_
  obtain ⟨s, rfl, hs⟩ := hfound
  refine (@selectSeeds_holds request estimator (Search.found s).nodes).bind fun charged hcharged => ?_
  obtain ⟨selected, used⟩ := charged
  have hcandidates : ∀ fact ∈ (Search.found s).facts.toList.map (·.2), fact ∈ p.facts ∧
      (Search.found s).distances.contains fact.source = true ∧
        (Search.found s).distances.contains fact.target = true := by
    intro fact hf
    obtain ⟨⟨id, other⟩, he, rfl⟩ := List.mem_map.mp hf
    obtain ⟨hfact, hends⟩ := found_facts_iff.mp (Std.ExtTreeMap.mem_toList_iff_getElem?_eq_some.mp he)
    exact ⟨((edge_iff hp).mp (hs.facts id other hfact).2).1, hends⟩
  refine (rankCandidates_holds fun fact hf => (hcandidates fact hf).2).bind fun candidates hranked => ?_
  have hselection := @Holds.foldlM MemoryError MemoryFact Selection (Selects (Search.found s).nodes candidates)
    (· ≠ .panicked) (selectFact estimator request (Search.found s).nodes) candidates ⟨selected, used, [], 0⟩
    (fun t ht fact hf => by
      obtain ⟨-, hsource, htarget⟩ := hcandidates fact (hranked fact hf)
      refine selectFact_holds estimator hf ⟨?_, ?_⟩ ht
      · exact (hs.contains_eq hp _).trans hsource
      · exact (hs.contains_eq hp _).trans htarget)
    ⟨hcharged, fun _ h => absurd h List.not_mem_nil⟩
  refine hselection.bind fun selection hselects => ?_
  have hnodes := @Holds.mapM MemoryError EntityId MemoryNode (fun _ => True) (· ≠ .panicked)
    (indexMap (Search.found s).nodes) selection.selected.toList fun id hid =>
      (indexMap_holds (hselects.selected id (Std.ExtTreeSet.mem_toList.mp hid))).mono (fun _ _ => trivial) fun _ h => h
  refine hnodes.bind fun nodes _ => ?_
  have hgraph : Safe (projectGraph crate
      ⟨nodes, selection.facts.mergeSort fun left right => (compare left.id right.id).isLE⟩) := by
    apply safe_projectGraph
    intro fact hf
    have hin := (hcandidates fact (hranked fact (hselects.facts fact (List.mem_mergeSort.mp hf)))).1
    have hvalid := hp.sound.valid fact hin
    simp only [MemoryFact.validate, unit_bind_eq_ok, throwIf_eq_ok] at hvalid
    exact hvalid.2.2.2.1
  exact (holds_of_safe hgraph).bind fun _ _ => trivial

theorem safe_fact (hp : Valid p) (id : FactId) : Safe (fact p id) := by
  rw [fact]
  cases hg : p.factLookup.get id with
  | none => exact safe_ok none
  | some i =>
      obtain ⟨found, hi, -⟩ := hp.indexed.fact_index.mp hg
      simp only [getAt_eq_ok.mpr hi]
      exact safe_ok (some found)

theorem safe_admitNode (hp : Valid p) (revision : NodeRevision) : Safe (admitNode p revision) := by
  rw [admitNode]
  refine (safe_validateNode _).bind fun _ _ => ?_
  cases hg : p.nodeLookup.get revision.node.id with
  | none => exact safe_ok _
  | some i =>
      obtain ⟨history, hi, -⟩ := hp.indexed.node_index.mp hg
      simp only [getAt_eq_ok.mpr hi]
      exact safe_ok _

theorem safe_admitEvent (hp : Valid p) (event : StoredEvent MemoryEvent) : Safe (admitEvent p event) := by
  rw [admitEvent]
  refine (safe_throwIf (by simp)).bind fun _ _ => ?_
  cases event.payload with
  | nodeUpserted node => exact safe_admitNode hp _
  | factRecorded fact =>
      exact (safe_throwIf (by simp)).bind fun _ _ => (safe_validateFact fact).bind fun _ _ =>
        (safe_entityIndex _ _).bind fun _ _ => (safe_entityIndex _ _).bind fun _ _ =>
          (safe_throwIf (by simp)).bind fun _ _ => (safe_admitPrior p fact.supersedes).bind fun _ _ => safe_ok _
  | factRetracted factId validUntil evidence =>
      refine (safe_fact hp factId).bind fun found _ => ?_
      cases found with
      | none => exact safe_error (by simp)
      | some found =>
          exact (safe_throwIf (by simp)).bind fun _ _ => (safe_throwIf (by simp)).bind fun _ _ =>
            (safe_validateEvidence _).bind fun _ _ => safe_ok _

theorem apply_not_panicked (hp : Valid p) (event : StoredEvent MemoryEvent) (q : MemoryProjection) :
    apply event p ≠ .error .panicked q := by
  rw [apply_eq]
  cases hc : admitEvent p event with
  | ok change => exact nofun
  | error e =>
      intro h
      have he : e = .panicked := (EStateM.Result.error.inj h).1
      exact safe_admitEvent hp event (he ▸ hc)

/-- The representation of a projection, and that nothing indexes it out of range. -/
structure Represented (p : MemoryProjection) : Prop where
  nodeLookup : ∀ id i, p.nodeLookup.get id = some i ↔ ∃ history, p.nodes[i]? = some history ∧ history.id = id
  factLookup : ∀ id i, p.factLookup.get id = some i ↔ ∃ fact, p.facts[i]? = some fact ∧ fact.id = id
  offsets_length : p.incidentOffsets.length = p.nodes.length + 1
  offsets_sorted : p.incidentOffsets.Pairwise (· ≤ ·)
  offsets_last : p.incidentOffsets.getLast? = some p.incidentFacts.length
  factIds : (p.facts.map MemoryFact.id).Nodup
  incidents : ∀ id, incidentFactIds p id = .ok ((p.facts.filter fun fact => Touches id fact).map MemoryFact.id)
  visibleNode : ∀ id knownAt, visibleNode p id knownAt ≠ .error .panicked
  fact : ∀ id, fact p id ≠ .error .panicked
  apply : ∀ event q, apply event p ≠ .error .panicked q
  applyOwned : ∀ event q, applyOwned event p ≠ .error .panicked q
  compile : ∀ (crate : GraphCrate) estimator request,
    compile (projectGraph crate) estimator p request ≠ .error .panicked

/-- Each way to a projection leads to one whose indexes are exact, and none of the ways panics on an
index. -/
theorem indexes_exact :
    (∀ handed p, Obtained handed p → Represented p) ∧
    (∀ seeds parallelism nodes facts knownAt sourcePosition,
      tryFromParts seeds parallelism nodes facts knownAt sourcePosition ≠ .error .panicked) ∧
    ∀ (seeds : Seeds) (data : ProjectionData), data.deserialize seeds ≠ .error .panicked := by
  refine ⟨fun handed p h => ?_, fun seeds parallelism nodes facts knownAt sourcePosition he => ?_,
    fun seeds data he => ?_⟩
  · obtain ⟨hp, -⟩ := h.valid
    have hindexed := hp.indexed
    exact
      { nodeLookup := fun _ _ => hindexed.node_index
        factLookup := fun _ _ => hindexed.fact_index
        offsets_length := hindexed.offsets_length
        offsets_sorted := hindexed.offsets_sorted
        offsets_last := hindexed.offsets_last
        factIds := hp.sound.factIds
        incidents := hp.incidentFactIds_eq
        visibleNode := fun id knownAt he => by
          have hvisible := @visibleNode_eq p ⟨[], knownAt, knownAt, 0, 0, ∅, ∅, ∅⟩ hp id
          cases hvisible.symm.trans he
        fact := safe_fact hp
        apply := apply_not_panicked hp
        applyOwned := fun event q => by
          rw [applyOwned_eq, ← apply_eq]
          exact apply_not_panicked hp event q
        compile := fun crate estimator request => safe_compile hp crate estimator request }
  · exact ((tryFromParts_holds seeds parallelism nodes facts knownAt sourcePosition).of_error he).1 rfl
  · obtain ⟨hoverflow, -⟩ | hrejects := (deserialize_holds seeds data).of_error he
    · cases hoverflow
    · exact hrejects.1 rfl

theorem indexes_exact_overconfident : Represented (applyAll ⟨1, 2⟩ overconfidentLog) :=
  indexes_exact.1 [overconfident] (applyAll ⟨1, 2⟩ overconfidentLog) obtained_overconfident

end WeavatrixMemory.Context.Bounds
