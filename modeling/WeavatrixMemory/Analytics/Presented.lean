import WeavatrixMemory.Analytics.Cascade
import WeavatrixMemory.GraphAttributes
import WeavatrixMemory.Projection.Parts

namespace WeavatrixMemory.Analytics.Presented

open Error Identity Domain GraphProjection GraphAttributes Cascade Pairings
open Projection.Parts (mapM_eq_ok)

structure Ends (crate : GraphCrate) where
  source : crate.Edge → crate.NodeId
  target : crate.Edge → crate.NodeId

variable {crate : GraphCrate}

def idOf (adjacency : Adjacency crate) (made : crate.Node) : Text := adjacency.idText (crate.nodeId made)

structure Finds (adjacency : Adjacency crate) (ends : Ends crate) (nodes : List crate.Node) (edges : List crate.Edge)
    (graph : crate.Graph) : Prop where
  nodeAt : ∀ made, (∃ i, adjacency.nodeAt graph i = some made) ↔ made ∈ nodes
  nodeIndex : ∀ text i, adjacency.nodeIndex graph text = some i ↔
    ∃ made, adjacency.nodeAt graph i = some made ∧ idOf adjacency made = text
  outgoing : ∀ i made, adjacency.nodeAt graph i = some made → ∀ j, j ∈ adjacency.outgoingNeighborsAt graph i ↔
    ∃ edge ∈ edges, ends.source edge = crate.nodeId made ∧
      ∃ other, adjacency.nodeAt graph j = some other ∧ crate.nodeId other = ends.target edge

/-- Nodes and edges keep what they are made from, and a graph whose nodes have distinct identifiers finds
its nodes and edges. -/
structure Lawful (adjacency : Adjacency crate) (ends : Ends crate) : Prop where
  id_new : ∀ id label kind made, crate.newNode id label kind = .ok made → (idOf adjacency made).str = id
  id_set : ∀ made key value, crate.nodeId (crate.nodeAttribute made key value) = crate.nodeId made
  ends_new : ∀ source target kind provenance, ends.source (crate.newEdge source target kind provenance) = source ∧
    ends.target (crate.newEdge source target kind provenance) = target
  ends_set : ∀ edge key value, ends.source (crate.edgeAttribute edge key value) = ends.source edge ∧
    ends.target (crate.edgeAttribute edge key value) = ends.target edge
  finds : ∀ nodes edges graph, crate.tryFromSortedNodes nodes edges = .ok graph → (nodes.map (idOf adjacency)).Nodup →
    Finds adjacency ends nodes edges graph

def Adjacent (facts : List MemoryFact) (u v : EntityId) : Prop := ∃ fact ∈ facts, fact.source = u ∧ fact.target = v

variable {adjacency : Adjacency crate} {ends : Ends crate}

theorem nodeId_foldl (h : Lawful adjacency ends) (entries : List (Text × Text)) (made : crate.Node) :
    crate.nodeId (entries.foldl (fun made entry => crate.nodeAttribute made (memoryKey entry.1) (text entry.2)) made) =
      crate.nodeId made := by
  induction entries generalizing made with
  | nil => rfl
  | cons entry rest ih => exact (ih _).trans (h.id_set _ _ _)

theorem idOf_projectNode (h : Lawful adjacency ends) {node : MemoryNode} {made : crate.Node}
    (hmade : projectNode crate node = .ok made) : idOf adjacency made = node.id.text := by
  obtain ⟨start, hstart, rfl⟩ := projectNode_eq_ok hmade
  obtain ⟨kind, -, hnew⟩ := bind_eq_ok.mp hstart
  have hscope : crate.nodeId (withScope crate node start) = crate.nodeId start := by
    simp only [withScope]
    cases node.branch <;> cases node.repository <;> simp only [Option.elim_none, Option.elim_some, h.id_set]
  rw [idOf, nodeId_foldl h, hscope]
  exact Text.ext (h.id_new _ _ _ _ (ofGraph_eq_ok.mp hnew))

theorem ids_projectNodes (h : Lawful adjacency ends) {nodes : List MemoryNode} {ids : BTreeMap EntityId crate.NodeId}
    {made : List crate.Node × BTreeMap EntityId crate.NodeId} (hmade : projectNodes crate nodes ids = .ok made)
    {id : EntityId} {nodeId : crate.NodeId} (hid : made.2[id]? = some nodeId) :
    ids[id]? = some nodeId ∨ adjacency.idText nodeId = id.text ∧ ∃ node ∈ made.1, crate.nodeId node = nodeId := by
  induction nodes generalizing ids made with
  | nil =>
      obtain rfl := Except.ok.inj hmade
      exact .inl hid
  | cons node rest ih =>
      obtain ⟨first, hfirst, hmade⟩ := bind_eq_ok.mp hmade
      obtain ⟨others, hothers, hmade⟩ := bind_eq_ok.mp hmade
      obtain rfl := Except.ok.inj hmade
      obtain hbefore | ⟨htext, other, hother, rfl⟩ := ih hothers hid
      · obtain ⟨rfl, rfl⟩ | ⟨-, hbefore⟩ := getElem?_insert_eq_some.mp hbefore
        · exact .inr ⟨idOf_projectNode h hfirst, first, List.mem_cons_self, rfl⟩
        · exact .inl hbefore
      · exact .inr ⟨htext, other, List.mem_cons_of_mem _ hother, rfl⟩

theorem endpoint_eq_ok {ids : BTreeMap EntityId crate.NodeId} {id : EntityId} {nodeId : crate.NodeId} :
    endpoint crate ids id = .ok nodeId ↔ ids[id]? = some nodeId := by
  rw [endpoint]
  cases ids[id]? with
  | none => simp
  | some other => simp

theorem ends_projectFact (h : Lawful adjacency ends) {ids : BTreeMap EntityId crate.NodeId} {fact : MemoryFact}
    {edge : crate.Edge} (hedge : projectFact crate ids fact = .ok edge) :
    ids[fact.source]? = some (ends.source edge) ∧ ids[fact.target]? = some (ends.target edge) := by
  obtain ⟨source, hsource, hedge⟩ := bind_eq_ok.mp hedge
  obtain ⟨target, htarget, hedge⟩ := bind_eq_ok.mp hedge
  obtain ⟨primary, -, hedge⟩ := bind_eq_ok.mp hedge
  obtain ⟨kind, -, hedge⟩ := bind_eq_ok.mp hedge
  obtain ⟨provenance, -, hedge⟩ := bind_eq_ok.mp hedge
  obtain ⟨relation, -, hedge⟩ := bind_eq_ok.mp hedge
  obtain rfl := Except.ok.inj hedge
  rw [endpoint_eq_ok.mp hsource, endpoint_eq_ok.mp htarget]
  cases fact.validUntil <;> cases fact.supersedes <;>
    simp only [Option.elim_none, Option.elim_some, (h.ends_set _ _ _).1, (h.ends_set _ _ _).2, (h.ends_new _ _ _ _).1,
      (h.ends_new _ _ _ _).2, and_self]

theorem entityAt_eq_some {graph : crate.Graph} {index : Nat} {id : EntityId} :
    entityAt adjacency graph index = some id ↔
      ∃ made, adjacency.nodeAt graph index = some made ∧ idOf adjacency made = id.text := by
  rw [entityAt]
  cases adjacency.nodeAt graph index with
  | none => simp
  | some made =>
      simp only [Option.some.injEq, exists_eq_left']
      cases hnew : (TextId.new (adjacency.idText (crate.nodeId made)) : Result EntityId) with
      | error e =>
          refine iff_of_false (fun h => by cases h) fun h => ?_
          change adjacency.idText (crate.nodeId made) = id.text at h
          rw [h, TextId.new_text] at hnew
          cases hnew
      | ok other =>
          have hother := TextId.text_of_new hnew
          rw [Option.some.injEq, idOf, ← hother]
          constructor
          · rintro rfl
            rfl
          · exact TextId.ext

structure Projected (adjacency : Adjacency crate) (ends : Ends crate) (view : MemoryView) (mades : List crate.Node)
    (edges : List crate.Edge) : Prop where
  nodes : List.Forall₂ (fun node made => idOf adjacency made = node.id.text) view.nodes mades
  distinct : (mades.map (idOf adjacency)).Nodup
  edges : List.Forall₂ (fun fact edge =>
    (∃ made ∈ mades, crate.nodeId made = ends.source edge ∧ idOf adjacency made = fact.source.text) ∧
      ∃ made ∈ mades, crate.nodeId made = ends.target edge ∧ idOf adjacency made = fact.target.text) view.facts edges

theorem exists_projected (h : Lawful adjacency ends) {view : MemoryView} {graph : crate.Graph}
    (hnodes : (view.nodes.map MemoryNode.id).Nodup) (hgraph : projectGraph crate view = .ok graph) :
    ∃ mades edges, crate.tryFromSortedNodes mades edges = .ok graph ∧ Projected adjacency ends view mades edges := by
  obtain ⟨⟨mades, ids⟩, hmade, hgraph⟩ := bind_eq_ok.mp hgraph
  obtain ⟨edges, hedges, hgraph⟩ := bind_eq_ok.mp hgraph
  have hmades := (projectNodes_eq_ok hmade).imp fun _ _ => idOf_projectNode h
  have hids (id : EntityId) (nodeId : crate.NodeId) (hid : ids[id]? = some nodeId) :
      ∃ made ∈ mades, crate.nodeId made = nodeId ∧ idOf adjacency made = id.text := by
    obtain hnone | ⟨htext, made, hin, rfl⟩ := ids_projectNodes h hmade hid
    · rw [Std.ExtTreeMap.getElem?_empty] at hnone
      cases hnone
    · exact ⟨made, hin, rfl, htext⟩
  refine ⟨mades, edges, ofGraph_eq_ok.mp hgraph, hmades, ?_, (mapM_eq_ok.mp hedges).imp fun fact edge hedge => ?_⟩
  · refine nodup_map hmades (fun node _ node' _ made made' hid hid' hsame => ?_) hnodes
    rw [hid, hid'] at hsame
    exact TextId.ext hsame
  · obtain ⟨hs, ht⟩ := ends_projectFact h hedge
    exact ⟨hids _ _ hs, hids _ _ ht⟩

section Projected

variable {shown : MemoryView} {mades : List crate.Node} {edges : List crate.Edge}

theorem Projected.made_eq (h : Projected adjacency ends shown mades edges) {made other : crate.Node}
    (hmade : made ∈ mades) (hother : other ∈ mades) (hid : idOf adjacency made = idOf adjacency other) : made = other :=
  List.inj_on_of_nodup_map h.distinct hmade hother hid

theorem Projected.touches (h : Projected adjacency ends shown mades edges) {node : MemoryNode} {made : crate.Node}
    (hmade : made ∈ mades) (hid : idOf adjacency made = node.id.text) :
    ((∀ edge ∈ edges, ends.source edge ≠ crate.nodeId made) ↔ ∀ fact ∈ shown.facts, fact.source ≠ node.id) ∧
      ((∀ edge ∈ edges, ends.target edge ≠ crate.nodeId made) ↔ ∀ fact ∈ shown.facts, fact.target ≠ node.id) := by
  have hback (id : EntityId) (other : crate.Node) (hother : other ∈ mades)
      (hidOf : idOf adjacency other = id.text) : id = node.id ↔ crate.nodeId other = crate.nodeId made := by
    constructor
    · rintro rfl
      rw [h.made_eq hother hmade (hidOf.trans hid.symm)]
    · intro hsame
      refine TextId.ext ?_
      rw [← hidOf, ← hid, idOf, hsame, idOf]
  refine ⟨⟨fun hall fact hf heq => ?_, fun hall edge he heq => ?_⟩,
    ⟨fun hall fact hf heq => ?_, fun hall edge he heq => ?_⟩⟩
  · obtain ⟨edge, he, ⟨first, hfirst, hs, hstext⟩, -⟩ := exists_right h.edges fact hf
    exact hall edge he (hs.symm.trans ((hback _ _ hfirst hstext).mp heq))
  · obtain ⟨fact, hf, ⟨first, hfirst, hs, hstext⟩, -⟩ := exists_left h.edges edge he
    exact hall fact hf ((hback _ _ hfirst hstext).mpr (hs.trans heq))
  · obtain ⟨edge, he, -, last, hlast, ht, httext⟩ := exists_right h.edges fact hf
    exact hall edge he (ht.symm.trans ((hback _ _ hlast httext).mp heq))
  · obtain ⟨fact, hf, -, last, hlast, ht, httext⟩ := exists_left h.edges edge he
    exact hall fact hf ((hback _ _ hlast httext).mpr (ht.trans heq))

end Projected

/-- The graph that a view is projected to presents the active facts. -/
theorem presents_of_projectGraph (h : Lawful adjacency ends) {view : MemoryView} {graph : crate.Graph}
    (hnodes : (view.nodes.map MemoryNode.id).Nodup)
    (htargets : ∀ fact ∈ view.facts, fact.target ∈ view.nodes.map MemoryNode.id)
    (hgraph : projectGraph crate view = .ok graph) :
    Presents adjacency graph (view.nodes.map MemoryNode.id) (Adjacent view.facts) := by
  obtain ⟨mades, edges, hgraph, hmades, hdistinct, hedges⟩ := exists_projected h hnodes hgraph
  have hfinds := h.finds _ _ _ hgraph hdistinct
  refine ⟨fun v hv => ?_, fun v i hi w => ?_, fun v w hadj => ?_⟩
  · obtain ⟨node, hnode, rfl⟩ := List.mem_map.mp hv
    obtain ⟨made, hin, hid⟩ := exists_right hmades node hnode
    obtain ⟨i, hi⟩ := (hfinds.nodeAt made).mpr hin
    exact ⟨i, (hfinds.nodeIndex _ _).mpr ⟨made, hi, hid⟩⟩
  · obtain ⟨made, hat, hid⟩ := (hfinds.nodeIndex _ _).mp hi
    rw [neighborsAt, List.mem_filterMap]
    simp only [hfinds.outgoing i made hat, entityAt_eq_some]
    constructor
    · rintro ⟨j, ⟨edge, hedge, hsource, other, hj, htarget⟩, other', hj', hw⟩
      obtain rfl := Option.some.inj (hj.symm.trans hj')
      obtain ⟨fact, hfact, ⟨first, -, hs, hstext⟩, last, -, ht, httext⟩ := exists_left hedges edge hedge
      refine ⟨fact, hfact, TextId.ext ?_, TextId.ext ?_⟩
      · rw [← hstext, idOf, hs, hsource]
        exact hid
      · rw [← httext, idOf, ht, ← htarget]
        exact hw
    · rintro ⟨fact, hin, rfl, rfl⟩
      obtain ⟨edge, hedge, ⟨first, hfirst, hs, hstext⟩, other, hother, ht, httext⟩ := exists_right hedges fact hin
      obtain ⟨j, hj⟩ := (hfinds.nodeAt other).mpr hother
      have hsame : first = made := by
        apply List.inj_on_of_nodup_map hdistinct hfirst ((hfinds.nodeAt made).mp ⟨i, hat⟩)
        rw [hid, hstext]
      refine ⟨j, ⟨edge, hedge, ?_, other, hj, ht⟩, other, hj, httext⟩
      rw [← hs, hsame]
  · obtain ⟨fact, hin, -, rfl⟩ := hadj
    exact htargets fact hin

end WeavatrixMemory.Analytics.Presented
