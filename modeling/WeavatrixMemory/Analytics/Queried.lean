import WeavatrixMemory.Analytics.Belief
import WeavatrixMemory.Analytics.Consolidation
import WeavatrixMemory.Analytics.Gaps

namespace WeavatrixMemory.Analytics.Queried

open Error Identity Domain GraphProjection Pairings Relation Breadth Analytics.Model Analytics.Timeline Cascade
open Presented
open Belief Consolidation Gaps
open Projection.State Projection.Memory Projection.Invariant Projection.Views

variable {crate : GraphCrate}

def Next (adjacency : Adjacency crate) (graph : crate.Graph) (i j : Nat) : Prop :=
  j ∈ adjacency.outgoingNeighborsAt graph i

/-- A graph lists its nodes, counts the edges of each, and can be searched along its edges. -/
structure Counts (adjacency : Adjacency crate) (ends : Ends crate) (queries : GraphQueries crate)
    (traversal : Traversal crate) (nodes : List crate.Node) (edges : List crate.Edge) (graph : crate.Graph) : Prop where
  nodeIds : (queries.nodeIds graph).Perm (nodes.map (idOf adjacency))
  inDegree : ∀ i made, adjacency.nodeAt graph i = some made →
    (queries.inDegree graph i = some 0 ↔ ∀ edge ∈ edges, ends.target edge ≠ crate.nodeId made)
  outDegree : ∀ i made, adjacency.nodeAt graph i = some made →
    (queries.outDegree graph i = some 0 ↔ ∀ edge ∈ edges, ends.source edge ≠ crate.nodeId made)
  once : ∀ i made, adjacency.nodeAt graph i = some made → (traversal.bfs graph i).Nodup
  bfs : ∀ i made, adjacency.nodeAt graph i = some made →
    ∀ j, j ∈ traversal.bfs graph i ↔ ReflTransGen (Next adjacency graph) i j

/-- The analyses ask one graph crate, and it answers them truly. -/
structure Answers (adjacency : Adjacency crate) (ends : Ends crate) (queries : GraphQueries crate)
    (traversal : Traversal crate) : Prop where
  lawful : Lawful adjacency ends
  asked : queries.nodeIndex = adjacency.nodeIndex
  searched : traversal.nodeIndex = adjacency.nodeIndex
  counts : ∀ nodes edges graph, crate.tryFromSortedNodes nodes edges = .ok graph → (nodes.map (idOf adjacency)).Nodup →
    Counts adjacency ends queries traversal nodes edges graph

def Alone (facts : List MemoryFact) (id : EntityId) : Prop := ∀ fact ∈ facts, fact.source ≠ id ∧ fact.target ≠ id

instance (facts : List MemoryFact) (id : EntityId) : Decidable (Alone facts id) :=
  inferInstanceAs (Decidable (∀ fact ∈ facts, _))

structure Tells (queries : GraphQueries crate) (traversal : Traversal crate) (graph : crate.Graph)
    (shown : MemoryView) : Prop where
  nodeIds : (queries.nodeIds graph).Perm (shown.nodes.map fun node => node.id.text)
  isolated : ∀ node ∈ shown.nodes, ∃ i, queries.nodeIndex graph node.id.text = some i ∧
    (queries.inDegree graph i = some 0 ∧ queries.outDegree graph i = some 0 ↔ Alone shown.facts node.id)
  downstream : ∀ id, ∃ reached : List EntityId, reached.Nodup ∧
    (∀ w, w ∈ reached ↔ ReflTransGen (Adjacent shown.facts) id w ∧ w ≠ id) ∧
    downstream traversal graph id = reached.length

variable {adjacency : Adjacency crate} {ends : Ends crate} {queries : GraphQueries crate} {traversal : Traversal crate}
  {shown : MemoryView} {graph : crate.Graph} {mades : List crate.Node} {edges : List crate.Edge}

section Reached

variable {Adj : EntityId → EntityId → Prop} {vertices : List EntityId}

theorem exists_entity (hnext : ∀ i v j, entityAt adjacency graph i = some v → Next adjacency graph i j →
    ∃ w, entityAt adjacency graph j = some w) {i j : Nat} {v : EntityId} (hv : entityAt adjacency graph i = some v)
    (hpath : ReflTransGen (Next adjacency graph) i j) : ∃ w, entityAt adjacency graph j = some w := by
  induction hpath with
  | refl => exact ⟨v, hv⟩
  | tail _ hstep ih =>
      obtain ⟨u, hu⟩ := ih
      exact hnext _ u _ hu hstep

theorem reached_iff (hp : Presents adjacency graph vertices Adj)
    (hindex : ∀ i v, entityAt adjacency graph i = some v ↔ adjacency.nodeIndex graph v.text = some i)
    (hnext : ∀ i v j, entityAt adjacency graph i = some v → Next adjacency graph i j →
      ∃ w, entityAt adjacency graph j = some w) {i : Nat} {v : EntityId} (hv : entityAt adjacency graph i = some v)
    (w : EntityId) :
    (∃ j, ReflTransGen (Next adjacency graph) i j ∧ entityAt adjacency graph j = some w) ↔ ReflTransGen Adj v w := by
  constructor
  · rintro ⟨j, hpath, hw⟩
    induction hpath generalizing w with
    | refl =>
        obtain rfl := Option.some.inj (hv.symm.trans hw)
        exact .refl
    | @tail j k hpath hstep ih =>
        obtain ⟨u, hu⟩ := exists_entity hnext hv hpath
        exact (ih u hu).tail ((hp.neighbors u j ((hindex j u).mp hu) w).mp (List.mem_filterMap.mpr ⟨k, hstep, hw⟩))
  · intro hpath
    induction hpath with
    | refl => exact ⟨i, .refl, hv⟩
    | @tail u w _ hstep ih =>
        obtain ⟨j, hj, hu⟩ := ih
        obtain ⟨k, hk, hw⟩ := List.mem_filterMap.mp ((hp.neighbors u j ((hindex j u).mp hu) w).mpr hstep)
        exact ⟨k, hj.tail hk, hw⟩

end Reached

theorem exists_reached (hp : Presents adjacency graph (shown.nodes.map MemoryNode.id) (Adjacent shown.facts))
    (hsearched : traversal.nodeIndex = adjacency.nodeIndex)
    (hindex : ∀ i v, entityAt adjacency graph i = some v ↔ adjacency.nodeIndex graph v.text = some i)
    (hnext : ∀ i v j, entityAt adjacency graph i = some v → Next adjacency graph i j →
      ∃ w, entityAt adjacency graph j = some w)
    (hsources : ∀ fact ∈ shown.facts, fact.source ∈ shown.nodes.map MemoryNode.id)
    (hbfs : ∀ i v, entityAt adjacency graph i = some v → (traversal.bfs graph i).Nodup ∧
      ∀ j, j ∈ traversal.bfs graph i ↔ ReflTransGen (Next adjacency graph) i j) (id : EntityId) :
    ∃ reached : List EntityId, reached.Nodup ∧
      (∀ w, w ∈ reached ↔ ReflTransGen (Adjacent shown.facts) id w ∧ w ≠ id) ∧
      downstream traversal graph id = reached.length := by
  rw [downstream, hsearched]
  cases hi : adjacency.nodeIndex graph id.text with
  | none =>
      refine ⟨[], List.nodup_nil, fun w => ?_, rfl⟩
      refine iff_of_false List.not_mem_nil ?_
      rintro ⟨hpath, hne⟩
      obtain rfl | ⟨v, ⟨fact, hf, rfl, -⟩, -⟩ := hpath.cases_head
      · exact hne rfl
      · obtain ⟨i, hsome⟩ := hp.index _ (hsources fact hf)
        rw [hi] at hsome
        cases hsome
  | some i =>
      have hv := (hindex i id).mpr hi
      obtain ⟨honce, hmem⟩ := hbfs i id hv
      have hreached (w : EntityId) : w ∈ (traversal.bfs graph i).filterMap (entityAt adjacency graph) ↔
          ReflTransGen (Adjacent shown.facts) id w := by
        rw [List.mem_filterMap, ← reached_iff hp hindex hnext hv]
        exact exists_congr fun j => and_congr_left fun _ => hmem j
      have hnodup : ((traversal.bfs graph i).filterMap (entityAt adjacency graph)).Nodup := by
        refine honce.filterMap fun j k w hj hk => ?_
        exact Option.some.inj (((hindex j w).mp hj).symm.trans ((hindex k w).mp hk))
      have hlength : ((traversal.bfs graph i).filterMap (entityAt adjacency graph)).length =
          (traversal.bfs graph i).length := by
        rw [List.length_filterMap_eq_countP, List.countP_eq_length]
        intro j hj
        obtain ⟨w, hw⟩ := exists_entity hnext hv ((hmem j).mp hj)
        rw [hw]
        rfl
      refine ⟨((traversal.bfs graph i).filterMap (entityAt adjacency graph)).erase id, hnodup.erase id, fun w => ?_, ?_⟩
      · rw [hnodup.mem_erase_iff, hreached, and_comm]
      · rw [List.length_erase_of_mem ((hreached id).mpr .refl), hlength]
        rfl

theorem tells_of_projectGraph (h : Answers adjacency ends queries traversal)
    (hnodes : (shown.nodes.map MemoryNode.id).Nodup)
    (hends : ∀ fact ∈ shown.facts, fact.source ∈ shown.nodes.map MemoryNode.id ∧
      fact.target ∈ shown.nodes.map MemoryNode.id)
    (hgraph : projectGraph crate shown = .ok graph) : Tells queries traversal graph shown := by
  have hpresents := presents_of_projectGraph h.lawful hnodes (fun fact hf => (hends fact hf).2) hgraph
  obtain ⟨mades, edges, hmade, hprojected⟩ := exists_projected h.lawful hnodes hgraph
  have hfinds := h.lawful.finds _ _ _ hmade hprojected.distinct
  have hcounts := h.counts _ _ _ hmade hprojected.distinct
  have hindex (i : Nat) (v : EntityId) :
      entityAt adjacency graph i = some v ↔ adjacency.nodeIndex graph v.text = some i := by
    rw [entityAt_eq_some, hfinds.nodeIndex]
  refine ⟨?_, fun node hnode => ?_, exists_reached hpresents h.searched hindex (fun i v j hv hnext => ?_)
    (fun fact hf => (hends fact hf).1) fun i v hv => ?_⟩
  · have hids : List.Forall₂ (· = ·) (shown.nodes.map fun node => node.id.text) (mades.map (idOf adjacency)) :=
      List.forall₂_map_left_iff.mpr (List.forall₂_map_right_iff.mpr (hprojected.nodes.imp fun _ _ => Eq.symm))
    rw [List.forall₂_eq_eq_eq] at hids
    rw [hids]
    exact hcounts.nodeIds
  · obtain ⟨made, hin, hid⟩ := exists_right hprojected.nodes node hnode
    obtain ⟨i, hat⟩ := (hfinds.nodeAt made).mpr hin
    obtain ⟨hsources, htargets⟩ := hprojected.touches hin hid
    refine ⟨i, h.asked ▸ (hfinds.nodeIndex _ _).mpr ⟨made, hat, hid⟩, ?_⟩
    rw [hcounts.inDegree i made hat, hcounts.outDegree i made hat, hsources, htargets]
    constructor
    · rintro ⟨ht, hs⟩ fact hf
      exact ⟨hs fact hf, ht fact hf⟩
    · intro hall
      exact ⟨fun fact hf => (hall fact hf).2, fun fact hf => (hall fact hf).1⟩
  · obtain ⟨made, hat, -⟩ := entityAt_eq_some.mp hv
    obtain ⟨-, -, -, other, hj, -⟩ := (hfinds.outgoing i made hat j).mp hnext
    obtain ⟨node, -, hid⟩ := exists_left hprojected.nodes other ((hfinds.nodeAt other).mp ⟨j, hj⟩)
    exact ⟨node.id, entityAt_eq_some.mpr ⟨other, hj, hid⟩⟩
  · obtain ⟨made, hat, -⟩ := entityAt_eq_some.mp hv
    exact ⟨hcounts.once i made hat, hcounts.bfs i made hat⟩

theorem leads_lt {graph : listCrate.Graph} {i j : Nat} (h : leads graph i j = true) :
    i < graph.1.length ∧ j < graph.1.length := by
  obtain ⟨edge, hedge, hj⟩ := List.mem_filterMap.mp (of_decide_eq_true h)
  obtain ⟨-, hi⟩ := List.mem_filter.mp hedge
  obtain ⟨hlt, -⟩ := List.getElem?_eq_some_iff.mp (of_decide_eq_true hi)
  obtain ⟨hlt', -⟩ := List.idxOf?_eq_some_iff.mp hj
  exact ⟨hlt, hlt'⟩

theorem degree_eq_zero {graph : listCrate.Graph} {i : Nat} {made : Text} (hat : graph.1[i]? = some made)
    (ends : Text × Text → Text) :
    (graph.1[i]?.map fun id => (graph.2.filter (ends · = id)).length) = some 0 ↔
      ∀ edge ∈ graph.2, ends edge ≠ made := by
  rw [hat, Option.map_some, Option.some.injEq, List.length_eq_zero_iff, List.filter_eq_nil_iff]
  simp only [decide_eq_true_iff, ne_eq]

theorem mem_listTraversal {graph : listCrate.Graph} {i : Nat} (hi : i < graph.1.length) (j : Nat) :
    j ∈ listTraversal.bfs graph i ↔ ReflTransGen (Next listAdjacency graph) i j := by
  have hnext : Next listAdjacency graph = fun a b => leads graph a b = true := by
    funext a b
    exact propext (decide_eq_true_iff (p := b ∈ listAdjacency.outgoingNeighborsAt graph a)).symm
  have hreached := @reached_iff_through _ (leads graph) i j (List.range graph.1.length) fun u v h =>
    List.mem_range.mpr (leads_lt h).1
  rw [hnext, hreached, listTraversal, List.mem_filter, Bool.or_eq_true, decide_eq_true_iff, List.mem_range]
  refine and_iff_right_of_imp ?_
  rintro (rfl | hthrough)
  · exact hi
  · obtain ⟨before, -, hlast⟩ := Relation.TransGen.tail'_iff.mp (transGen_of_through hthrough)
    exact (leads_lt hlast).2

theorem answers_list : Answers listAdjacency listEnds listQueries listTraversal where
  lawful := lawful_list
  asked := rfl
  searched := rfl
  counts nodes edges graph hgraph _ := by
    cases hgraph
    exact ⟨List.Perm.of_eq (List.map_id nodes).symm, fun i made hat => degree_eq_zero hat _,
      fun i made hat => degree_eq_zero hat _, fun i made _ => List.nodup_range.filter _,
      fun i made hat => mem_listTraversal (List.getElem?_eq_some_iff.mp hat).1⟩

end WeavatrixMemory.Analytics.Queried
