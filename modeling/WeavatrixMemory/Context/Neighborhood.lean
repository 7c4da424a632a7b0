import WeavatrixMemory.Context.Compiler
import WeavatrixMemory.Library.Breadth
import WeavatrixMemory.Projection.History

namespace WeavatrixMemory.Context.Neighborhood

open Error Identity Domain Projection.State Projection.Memory Projection.Invariant Projection.History Compiler Breadth

def clockOf (request : ContextRequest) : ProjectionClock := ⟨request.validAt, request.knownAt⟩

def Shown (p : MemoryProjection) (request : ContextRequest) (id : EntityId) (node : MemoryNode) : Prop :=
  node ∈ (viewRef p (clockOf request)).nodes ∧ node.id = id

def Vertex (p : MemoryProjection) (request : ContextRequest) (id : EntityId) : Prop :=
  ∃ node, Shown p request id node ∧ nodeAllowed request node = true

structure Edge (p : MemoryProjection) (request : ContextRequest) (fact : MemoryFact) : Prop where
  viewed : fact ∈ (viewRef p (clockOf request)).facts
  allowed : relationAllowed request fact.relation = true
  source : Vertex p request fact.source
  target : Vertex p request fact.target

def Joins (fact : MemoryFact) (u v : EntityId) : Prop :=
  fact.source = u ∧ fact.target = v ∨ fact.source = v ∧ fact.target = u

def Adjacent (p : MemoryProjection) (request : ContextRequest) (u v : EntityId) : Prop :=
  ∃ fact, Edge p request fact ∧ Joins fact u v

def outOfScope (p : MemoryProjection) (request : ContextRequest) (id : EntityId) : Bool :=
  (viewRef p (clockOf request)).nodes.any fun node => node.id = id && !nodeAllowed request node

/-- A fact that would be an edge from one of the nodes, but for the scope of its other end. -/
def leavesScope (p : MemoryProjection) (request : ContextRequest) (found : BTreeMap EntityId Nat)
    (fact : MemoryFact) : Bool :=
  factIsActive p fact (clockOf request) && relationAllowed request fact.relation &&
    (found.contains fact.source && outOfScope p request fact.target ||
      found.contains fact.target && outOfScope p request fact.source)

def shown (p : MemoryProjection) (request : ContextRequest) (id : EntityId) : Option MemoryNode :=
  (visibleNodes p request.knownAt).find? fun node => node.id = id

variable {p : MemoryProjection} {request : ContextRequest}

theorem visible_history (hp : Valid p) {knownAt : Timestamp} {node : MemoryNode} (h : node ∈ visibleNodes p knownAt)
    {history : NodeHistory} (hh : history ∈ p.nodes) (hid : node.id = history.id) :
    visibleRevision history knownAt = some node := by
  obtain ⟨other, ho, hv⟩ := List.mem_filterMap.mp h
  have hsame : other.id = history.id := by rw [← visibleRevision_id hp ho hv, hid]
  rw [← List.inj_on_of_nodup_map hp.sound.nodeIds ho hh hsame]
  exact hv

theorem shown_eq_some (hp : Valid p) {id : EntityId} {node : MemoryNode} :
    shown p request id = some node ↔ Shown p request id node := by
  have hiff : ∀ {node : MemoryNode}, shown p request id = some node → Shown p request id node := by
    intro node h
    have hid : decide (node.id = id) = true := by simpa using List.find?_some h
    exact ⟨List.mem_of_find?_eq_some h, of_decide_eq_true hid⟩
  refine ⟨hiff, fun h => ?_⟩
  cases hs : shown p request id with
  | none =>
      have hno := List.find?_eq_none.mp hs node h.1
      exact absurd (decide_eq_true h.2) hno
  | some other =>
      obtain ⟨hmem, hid⟩ := hiff hs
      obtain ⟨history, hh, hv⟩ := List.mem_filterMap.mp h.1
      have hnode := visibleRevision_id hp hh hv
      have hother := visible_history hp hmem hh (hid.trans (h.2.symm.trans hnode))
      exact hother.symm.trans hv

theorem visibleNode_eq (hp : Valid p) (id : EntityId) :
    visibleNode p id request.knownAt = .ok (shown p request id) := by
  rw [visibleNode]
  cases hg : p.nodeLookup.get id with
  | none =>
      have hnone : shown p request id = none := by
        apply List.find?_eq_none.mpr
        intro node hnode hid
        obtain ⟨history, hh, hv⟩ := List.mem_filterMap.mp hnode
        apply hp.indexed.nodeLookup.get_eq_none.mp hg
        rw [← of_decide_eq_true hid, visibleRevision_id hp hh hv]
        exact List.mem_map_of_mem hh
      rw [hnone]
  | some i =>
      obtain ⟨history, hs, rfl⟩ := hp.indexed.node_index.mp hg
      have hmem := List.mem_of_getElem? hs
      have hshown : visibleRevision history request.knownAt = shown p request history.id := by
        apply Option.ext
        intro node
        rw [shown_eq_some hp]
        constructor
        · intro hv
          exact ⟨List.mem_filterMap.mpr ⟨history, hmem, hv⟩, visibleRevision_id hp hmem hv⟩
        · intro h
          exact visible_history hp h.1 hmem h.2
      simp only [getAt_eq_ok.mpr hs, ok_bind, hshown]

theorem expectFact_eq (hp : Valid p) {fact : MemoryFact} (h : fact ∈ p.facts) : expectFact p fact.id = .ok fact := by
  obtain ⟨i, hi⟩ := List.mem_iff_getElem?.mp h
  have hg := hp.indexed.fact_index.mpr ⟨fact, hi, rfl⟩
  rw [expectFact, Projection.Memory.fact, hg]
  simp only [getAt_eq_ok.mpr hi, ok_bind]

theorem vertex_iff (hp : Valid p) {id : EntityId} :
    Vertex p request id ↔ ∃ node, shown p request id = some node ∧ nodeAllowed request node = true := by
  simp only [Vertex, shown_eq_some hp]

theorem edge_iff (hp : Valid p) {fact : MemoryFact} :
    Edge p request fact ↔ fact ∈ p.facts ∧ factIsActive p fact (clockOf request) = true ∧
      relationAllowed request fact.relation = true ∧ Vertex p request fact.source ∧ Vertex p request fact.target := by
  have hknown : ∀ {id}, Vertex p request id → EntityKnown p id request.knownAt := by
    intro id h
    obtain ⟨node, ⟨hmem, rfl⟩, -⟩ := h
    exact (mem_visibleNodes_ids hp).mp (List.mem_map_of_mem hmem)
  have hviewed : fact ∈ (viewRef p (clockOf request)).facts ↔ fact ∈ p.facts ∧
      (EntityKnown p fact.source request.knownAt ∧ EntityKnown p fact.target request.knownAt) ∧
        factIsActive p fact (clockOf request) = true := by
    have hview := congrArg MemoryView.facts (view_eq hp (clockOf request))
    rw [view] at hview
    rw [hview, List.mem_filter, Bool.and_eq_true, decide_eq_true_iff]
    rfl
  constructor
  · intro h
    obtain ⟨hfact, -, hactive⟩ := hviewed.mp h.viewed
    exact ⟨hfact, hactive, h.allowed, h.source, h.target⟩
  · intro h
    obtain ⟨hfact, hactive, hallowed, hsource, htarget⟩ := h
    exact ⟨hviewed.mpr ⟨hfact, ⟨hknown hsource, hknown htarget⟩, hactive⟩, hallowed, hsource, htarget⟩

def neighbor (p : MemoryProjection) (request : ContextRequest) (current : EntityId) (fact : MemoryFact) :
    Option EntityId :=
  if factIsActive p fact (clockOf request) && relationAllowed request fact.relation &&
      (shown p request (otherEnd current fact)).any (nodeAllowed request) then some (otherEnd current fact)
  else none

def leaves (p : MemoryProjection) (request : ContextRequest) (current : EntityId) (fact : MemoryFact) : Bool :=
  factIsActive p fact (clockOf request) && relationAllowed request fact.relation &&
    (shown p request (otherEnd current fact)).any fun node => !nodeAllowed request node

def visited (p : MemoryProjection) (request : ContextRequest) (current : EntityId) (depth : Nat) (s : Search)
    (fact : MemoryFact) : Search :=
  if leaves p request current fact then { s with excluded := s.excluded.insert fact.id }
  else match neighbor p request current fact with
    | none => s
    | some other =>
        if s.distances.contains other then { s with facts := s.facts.insert fact.id fact }
        else if request.maxDepth ≤ depth then s
        else match shown p request other with
          | none => s
          | some node =>
            { s with
              distances := s.distances.insert other (depth + 1)
              nodes := s.nodes.insert other node
              queue := s.queue ++ [other]
              facts := s.facts.insert fact.id fact }

theorem visitFact_eq (hp : Valid p) {fact : MemoryFact} (hf : fact ∈ p.facts) (current : EntityId) (depth : Nat)
    (s : Search) :
    visitFact p request current depth s fact.id = .ok (visited p request current depth s fact) := by
  have hclock : factIsActive p fact ⟨request.validAt, request.knownAt⟩ = factIsActive p fact (clockOf request) := rfl
  rw [visitFact, expectFact_eq hp hf, ok_bind, hclock, visited, leaves, neighbor]
  cases ha : factIsActive p fact (clockOf request) with
  | false => rfl
  | true =>
      cases hr : relationAllowed request fact.relation with
      | false => rfl
      | true =>
          simp only [visibleNode_eq hp, ok_bind, Bool.not_true, Bool.or_self, Bool.false_eq_true, if_false,
            Bool.true_and]
          cases hs : shown p request (otherEnd current fact) with
          | none => rfl
          | some node =>
              cases hn : nodeAllowed request node with
              | false => simp [hn]
              | true =>
                  cases hc : s.distances.contains (otherEnd current fact) with
                  | true => simp [hn, hc]
                  | false =>
                      by_cases hd : request.maxDepth ≤ depth
                      · simp [hn, hc, hd]
                      · simp [hn, hc, hd, hs]

def frontier (s : Search) : Frontier EntityId := ⟨fun id => s.distances[id]?, s.queue⟩

theorem neighbor_eq_some {current v : EntityId} {fact : MemoryFact} :
    neighbor p request current fact = some v ↔ factIsActive p fact (clockOf request) = true ∧
      relationAllowed request fact.relation = true ∧ otherEnd current fact = v ∧
        ∃ node, shown p request v = some node ∧ nodeAllowed request node = true := by
  rw [neighbor]
  constructor
  · intro h
    split at h
    · rename_i hall
      rw [Bool.and_eq_true, Bool.and_eq_true, Option.any_eq_true] at hall
      obtain rfl := Option.some.inj h
      exact ⟨hall.1.1, hall.1.2, rfl, hall.2⟩
    · cases h
  · intro h
    obtain ⟨hactive, hallowed, rfl, hnode⟩ := h
    rw [if_pos]
    rw [Bool.and_eq_true, Bool.and_eq_true, Option.any_eq_true]
    exact ⟨⟨hactive, hallowed⟩, hnode⟩

theorem leaves_iff {current : EntityId} {fact : MemoryFact} :
    leaves p request current fact = true ↔ factIsActive p fact (clockOf request) = true ∧
      relationAllowed request fact.relation = true ∧
        ∃ node, shown p request (otherEnd current fact) = some node ∧ nodeAllowed request node = false := by
  rw [leaves, Bool.and_eq_true, Bool.and_eq_true, Option.any_eq_true, and_assoc]
  simp only [Bool.not_eq_true']

theorem neighbor_of_leaves {current : EntityId} {fact : MemoryFact} (h : leaves p request current fact = true) :
    neighbor p request current fact = none := by
  obtain ⟨-, -, node, hnode, hout⟩ := leaves_iff.mp h
  cases hn : neighbor p request current fact with
  | none => rfl
  | some v =>
      obtain ⟨-, -, rfl, other, hother, hin⟩ := neighbor_eq_some.mp hn
      obtain rfl : node = other := Option.some.inj (hnode.symm.trans hother)
      rw [hout] at hin
      cases hin

inductive Visit (p : MemoryProjection) (request : ContextRequest) (current : EntityId) (depth : Nat) (s : Search)
    (fact : MemoryFact) : Search → Prop
  | excluded (h : leaves p request current fact = true) :
      Visit p request current depth s fact { s with excluded := s.excluded.insert fact.id }
  | skipped (hn : neighbor p request current fact = none) (hl : leaves p request current fact = false) :
      Visit p request current depth s fact s
  | known {v : EntityId} (hn : neighbor p request current fact = some v) (hc : s.distances.contains v = true) :
      Visit p request current depth s fact { s with facts := s.facts.insert fact.id fact }
  | beyond {v : EntityId} (hn : neighbor p request current fact = some v) (hc : s.distances.contains v = false)
      (hd : request.maxDepth ≤ depth) : Visit p request current depth s fact s
  | discovered {v : EntityId} {node : MemoryNode} (hn : neighbor p request current fact = some v)
      (hc : s.distances.contains v = false) (hd : depth < request.maxDepth) (hs : shown p request v = some node) :
      Visit p request current depth s fact
        { s with
          distances := s.distances.insert v (depth + 1)
          nodes := s.nodes.insert v node
          queue := s.queue ++ [v]
          facts := s.facts.insert fact.id fact }

theorem visit_visited (current : EntityId) (depth : Nat) (s : Search) (fact : MemoryFact) :
    Visit p request current depth s fact (visited p request current depth s fact) := by
  rw [visited]
  cases hl : leaves p request current fact with
  | true => exact .excluded hl
  | false =>
      cases hn : neighbor p request current fact with
      | none => exact .skipped hn hl
      | some v =>
          cases hc : s.distances.contains v with
          | true => simpa [hc] using Visit.known hn hc
          | false =>
              by_cases hd : request.maxDepth ≤ depth
              · simpa [hc, hd] using Visit.beyond hn hc hd
              · obtain ⟨-, -, -, node, hs, -⟩ := neighbor_eq_some.mp hn
                simpa [hc, hd, hs] using Visit.discovered hn hc (not_le.mp hd) hs

variable {current : EntityId} {depth : Nat} {s t : Search} {fact : MemoryFact}

theorem contains_iff {m : BTreeMap EntityId Nat} {id : EntityId} : m.contains id = true ↔ ∃ n, m[id]? = some n := by
  rw [Std.ExtTreeMap.contains_eq_isSome_getElem?, Option.isSome_iff_exists]

theorem contains_insert {m : BTreeMap EntityId Nat} {id key : EntityId} {n : Nat} :
    (m.insert key n).contains id = true ↔ id = key ∨ m.contains id = true := by
  rw [contains_iff, contains_iff]
  simp only [getElem?_insert]
  by_cases h : id = key
  · simp [h]
  · simp [h]

theorem Visit.frontier (h : Visit p request current depth s fact t) : frontier t =
    (neighbor p request current fact).elim (frontier s)
      (discover request.maxDepth depth (Neighborhood.frontier s)) := by
  cases h with
  | excluded h => rw [neighbor_of_leaves h]; rfl
  | skipped hn hl => rw [hn]; rfl
  | @known v hn hc =>
      have hsome := contains_iff.mp hc
      rw [hn]
      change Neighborhood.frontier _ = discover request.maxDepth depth (Neighborhood.frontier s) v
      rw [discover, if_neg]
      · rfl
      · intro h
        obtain ⟨n, hn⟩ := hsome
        cases hn.symm.trans h.1
  | @beyond v hn hc hd =>
      rw [hn]
      change Neighborhood.frontier _ = discover request.maxDepth depth (Neighborhood.frontier s) v
      rw [discover, if_neg fun h => hd.not_gt h.2]
  | @discovered v node hn hc hd hs =>
      have hnone : (Neighborhood.frontier s).distance v = none := by
        rw [Std.ExtTreeMap.contains_eq_isSome_getElem?, Option.isSome_eq_false_iff] at hc
        exact Option.isNone_iff_eq_none.mp hc
      rw [hn]
      change Neighborhood.frontier _ = discover request.maxDepth depth (Neighborhood.frontier s) v
      rw [discover, if_pos ⟨hnone, hd⟩, Neighborhood.frontier, insert_eq_update]
      rfl

theorem frontier_visitAll (facts : List MemoryFact) :
    frontier (facts.foldl (visited p request current depth) s) =
      expand request.maxDepth depth (frontier s) (facts.filterMap (neighbor p request current)) :=
  expand_filterMap (fun s fact => (@visit_visited p request current depth s fact).frontier) facts s

theorem joins_otherEnd (h : Touches current fact) : Joins fact current (otherEnd current fact) := by
  rw [otherEnd]
  by_cases hs : fact.source = current
  · rw [if_pos hs]
    exact .inl ⟨hs, rfl⟩
  · rw [if_neg hs]
    exact .inr ⟨rfl, h.resolve_left hs⟩

theorem edge_of_neighbor (hp : Valid p) (hf : fact ∈ p.facts) (ht : Touches current fact)
    (hc : Vertex p request current) {v : EntityId} (hn : neighbor p request current fact = some v) :
    Edge p request fact ∧ Joins fact current v ∧ Vertex p request v := by
  obtain ⟨hactive, hallowed, rfl, hnode⟩ := neighbor_eq_some.mp hn
  have hv := (vertex_iff hp).mpr hnode
  have hj := joins_otherEnd ht
  refine ⟨(edge_iff hp).mpr ⟨hf, hactive, hallowed, ?_⟩, hj, hv⟩
  obtain ⟨hs, ht⟩ | ⟨hs, ht⟩ := hj
  · rw [hs, ht]
    exact ⟨hc, hv⟩
  · rw [hs, ht]
    exact ⟨hv, hc⟩

theorem outOfScope_iff (hp : Valid p) {id : EntityId} : outOfScope p request id = true ↔
    ∃ node, shown p request id = some node ∧ nodeAllowed request node = false := by
  rw [outOfScope, List.any_eq_true]
  simp only [Bool.and_eq_true, decide_eq_true_eq, Bool.not_eq_true', shown_eq_some hp, Shown, and_assoc]

theorem leavesScope_iff {found : BTreeMap EntityId Nat} : leavesScope p request found fact = true ↔
    factIsActive p fact (clockOf request) = true ∧ relationAllowed request fact.relation = true ∧
      (found.contains fact.source = true ∧ outOfScope p request fact.target = true ∨
        found.contains fact.target = true ∧ outOfScope p request fact.source = true) := by
  simp only [leavesScope, Bool.and_eq_true, Bool.or_eq_true, and_assoc]

structure Gathered (p : MemoryProjection) (request : ContextRequest) (s : Search) : Prop where
  nodes : ∀ id, s.nodes[id]? = if s.distances.contains id then shown p request id else none
  vertices : ∀ id, s.distances.contains id = true → Vertex p request id
  facts : ∀ id fact, s.facts[id]? = some fact → fact.id = id ∧ Edge p request fact
  excluded : ∀ id ∈ s.excluded, ∃ fact ∈ p.facts, fact.id = id ∧ leavesScope p request s.distances fact = true

structure Extends (s t : Search) : Prop where
  distances : ∀ id, s.distances.contains id = true → t.distances.contains id = true
  facts : ∀ (id : FactId) fact, s.facts[id]? = some fact → t.facts[id]? = some fact
  excluded : ∀ id ∈ s.excluded, id ∈ t.excluded

theorem extends_refl (s : Search) : Extends s s := ⟨fun _ => id, fun _ _ => id, fun _ => id⟩

theorem Extends.trans {u : Search} (h : Extends s t) (h' : Extends t u) : Extends s u where
  distances := fun id hid => h'.distances id (h.distances id hid)
  facts := fun id fact hf => h'.facts id fact (h.facts id fact hf)
  excluded := fun id hid => h'.excluded id (h.excluded id hid)

theorem Gathered.record (hp : Valid p) (h : Gathered p request s) (hf : fact ∈ p.facts) {id : FactId}
    {other : MemoryFact} (ho : s.facts[id]? = some other) : (s.facts.insert fact.id fact)[id]? = some other := by
  obtain ⟨rfl, hedge⟩ := h.facts id other ho
  rw [getElem?_insert]
  split
  · rename_i hid
    exact congrArg some (hp.indexed.fact_unique hf ((edge_iff hp).mp hedge).1 hid.symm)
  · exact ho

theorem Gathered.excluded_mono {found : BTreeMap EntityId Nat} (h : Gathered p request s)
    (hmono : ∀ id, s.distances.contains id = true → found.contains id = true) :
    ∀ id ∈ s.excluded, ∃ fact ∈ p.facts, fact.id = id ∧ leavesScope p request found fact = true := by
  intro id hid
  obtain ⟨fact, hf, hfid, hleaves⟩ := h.excluded id hid
  obtain ⟨hactive, hallowed, hends⟩ := leavesScope_iff.mp hleaves
  refine ⟨fact, hf, hfid, leavesScope_iff.mpr ⟨hactive, hallowed, ?_⟩⟩
  exact hends.imp (fun h => ⟨hmono _ h.1, h.2⟩) fun h => ⟨hmono _ h.1, h.2⟩

theorem Gathered.insert_fact (h : Gathered p request s) (hedge : Edge p request fact) (id : FactId)
    (other : MemoryFact) (ho : (s.facts.insert fact.id fact)[id]? = some other) :
    other.id = id ∧ Edge p request other := by
  obtain ⟨rfl, rfl⟩ | ⟨-, ho⟩ := getElem?_insert_eq_some.mp ho
  · exact ⟨rfl, hedge⟩
  · exact h.facts id other ho

theorem Visit.gathered (hp : Valid p) (h : Gathered p request s) (hf : fact ∈ p.facts) (ht : Touches current fact)
    (hc : s.distances.contains current = true) (hv : Visit p request current depth s fact t) :
    Gathered p request t ∧ Extends s t := by
  have hcurrent := h.vertices current hc
  cases hv with
  | excluded hl =>
      obtain ⟨hactive, hallowed, hout⟩ := leaves_iff.mp hl
      refine ⟨⟨h.nodes, h.vertices, h.facts, fun id hid => ?_⟩, fun _ => id, fun _ _ => id,
        fun id hid => (mem_insert _ _ _).mpr (.inr hid)⟩
      obtain rfl | hid := (mem_insert _ _ _).mp hid
      · refine ⟨fact, hf, rfl, leavesScope_iff.mpr ⟨hactive, hallowed, ?_⟩⟩
        have hscope := (outOfScope_iff hp).mpr hout
        obtain ⟨hs, htarget⟩ | ⟨hs, htarget⟩ := joins_otherEnd ht
        · left
          rw [hs, htarget]
          exact ⟨hc, hscope⟩
        · right
          rw [hs, htarget]
          exact ⟨hc, hscope⟩
      · exact h.excluded id hid
  | skipped hn hl => exact ⟨h, extends_refl s⟩
  | known hn hk =>
      obtain ⟨hedge, -, -⟩ := edge_of_neighbor hp hf ht hcurrent hn
      exact ⟨⟨h.nodes, h.vertices, h.insert_fact hedge, h.excluded⟩, fun _ => id, fun _ _ => h.record hp hf,
        fun _ => id⟩
  | beyond hn hk hd => exact ⟨h, extends_refl s⟩
  | @discovered v node hn hk hd hs =>
      obtain ⟨hedge, -, hvertex⟩ := edge_of_neighbor hp hf ht hcurrent hn
      have hmono : ∀ id, s.distances.contains id = true → (s.distances.insert v (depth + 1)).contains id = true :=
        fun id hid => contains_insert.mpr (.inr hid)
      refine ⟨⟨fun id => ?_, fun id hid => ?_, h.insert_fact hedge, h.excluded_mono hmono⟩, hmono,
        fun _ _ => h.record hp hf, fun _ => id⟩
      · rw [getElem?_insert, h.nodes id]
        by_cases hid : id = v
        · subst hid
          rw [if_pos rfl, if_pos (contains_insert.mpr (.inl rfl)), hs]
        · have hsame : (s.distances.insert v (depth + 1)).contains id = s.distances.contains id := by
            rw [Bool.eq_iff_iff, contains_insert]
            exact or_iff_right hid
          rw [if_neg hid]
          simp only [hsame]
      · obtain rfl | hid := contains_insert.mp hid
        · exact hvertex
        · exact h.vertices id hid

theorem Visit.complete (hv : Visit p request current depth s fact t) :
    (leaves p request current fact = true → fact.id ∈ t.excluded) ∧
    ∀ v, neighbor p request current fact = some v → s.distances.contains v = true → t.facts[fact.id]? = some fact := by
  constructor
  · intro hl
    have hnone := neighbor_of_leaves hl
    cases hv with
    | excluded => exact (mem_insert _ _ _).mpr (.inl rfl)
    | skipped _ hno =>
        rw [hl] at hno
        cases hno
    | known hn => cases hnone.symm.trans hn
    | beyond hn => cases hnone.symm.trans hn
    | discovered hn => cases hnone.symm.trans hn
  · intro v hn hc
    cases hv with
    | excluded hl => cases (neighbor_of_leaves hl).symm.trans hn
    | skipped hnone => cases hnone.symm.trans hn
    | known => rw [getElem?_insert, if_pos rfl]
    | @beyond w hw hno =>
        obtain rfl : v = w := Option.some.inj (hn.symm.trans hw)
        rw [hc] at hno
        cases hno
    | @discovered w _ hw hno =>
        obtain rfl : v = w := Option.some.inj (hn.symm.trans hw)
        rw [hc] at hno
        cases hno

theorem visitAll_gathered (hp : Valid p) (facts : List MemoryFact)
    (hfacts : ∀ fact ∈ facts, fact ∈ p.facts ∧ Touches current fact) (h : Gathered p request s)
    (hc : s.distances.contains current = true) :
    Gathered p request (facts.foldl (visited p request current depth) s) ∧
      Extends s (facts.foldl (visited p request current depth) s) ∧
      ∀ fact ∈ facts,
        (leaves p request current fact = true →
          fact.id ∈ (facts.foldl (visited p request current depth) s).excluded) ∧
        ∀ v, neighbor p request current fact = some v → s.distances.contains v = true →
          (facts.foldl (visited p request current depth) s).facts[fact.id]? = some fact := by
  induction facts generalizing s with
  | nil => exact ⟨h, extends_refl s, fun fact hf => absurd hf List.not_mem_nil⟩
  | cons fact facts ih =>
      obtain ⟨⟨hf, ht⟩, hfacts⟩ := List.forall_mem_cons.mp hfacts
      have hvisit := @visit_visited p request current depth s fact
      obtain ⟨hnext, hextends⟩ := hvisit.gathered hp h hf ht hc
      obtain ⟨hleft, hjoined⟩ := hvisit.complete
      obtain ⟨hlast, hrest, hall⟩ := ih hfacts hnext (hextends.distances current hc)
      rw [List.foldl_cons]
      refine ⟨hlast, hextends.trans hrest, List.forall_mem_cons.mpr ⟨⟨?_, ?_⟩, fun other ho => ⟨(hall other ho).1, ?_⟩⟩⟩
      · intro hl
        exact hrest.excluded _ (hleft hl)
      · intro v hn hv
        exact hrest.facts _ _ (hjoined v hn hv)
      · intro v hn hv
        exact (hall other ho).2 v hn (hextends.distances v hv)

theorem otherEnd_of_joins {v : EntityId} (h : Joins fact current v) : otherEnd current fact = v := by
  rw [otherEnd]
  obtain ⟨hs, ht⟩ | ⟨hs, ht⟩ := h
  · rw [if_pos hs, ht]
  · by_cases hc : fact.source = current
    · rw [if_pos hc, ht, ← hc, hs]
    · rw [if_neg hc, hs]

theorem Joins.touches {v : EntityId} (h : Joins fact current v) : Touches current fact :=
  h.imp (fun h => h.1) fun h => h.2

def incident (p : MemoryProjection) (current : EntityId) : List MemoryFact :=
  p.facts.filter fun fact => Touches current fact

theorem mem_incident {fact : MemoryFact} : fact ∈ incident p current ↔ fact ∈ p.facts ∧ Touches current fact := by
  rw [incident, List.mem_filter, decide_eq_true_iff]

theorem mem_neighbors (hp : Valid p) (hc : Vertex p request current) (v : EntityId) :
    v ∈ (incident p current).filterMap (neighbor p request current) ↔ Adjacent p request current v := by
  rw [List.mem_filterMap]
  constructor
  · intro h
    obtain ⟨fact, hf, hn⟩ := h
    obtain ⟨hf, ht⟩ := mem_incident.mp hf
    obtain ⟨hedge, hj, -⟩ := edge_of_neighbor hp hf ht hc hn
    exact ⟨fact, hedge, hj⟩
  · intro h
    obtain ⟨fact, hedge, hj⟩ := h
    obtain ⟨hf, hactive, hallowed, hsource, htarget⟩ := (edge_iff hp).mp hedge
    refine ⟨fact, mem_incident.mpr ⟨hf, hj.touches⟩, neighbor_eq_some.mpr ⟨hactive, hallowed, otherEnd_of_joins hj, ?_⟩⟩
    rw [← vertex_iff hp]
    obtain ⟨-, ht⟩ | ⟨hs, -⟩ := hj
    · exact ht ▸ htarget
    · exact hs ▸ hsource

theorem vertex_mem (hp : Valid p) {id : EntityId} (h : Vertex p request id) : id ∈ p.nodes.map NodeHistory.id := by
  obtain ⟨node, ⟨hmem, rfl⟩, -⟩ := h
  obtain ⟨history, hh, hv⟩ := List.mem_filterMap.mp hmem
  rw [visibleRevision_id hp hh hv]
  exact List.mem_map_of_mem hh

def Done (s : Search) (id : EntityId) : Prop := s.distances.contains id = true ∧ id ∉ s.queue

/-- The invariant of the loop. -/
structure Searching (p : MemoryProjection) (request : ContextRequest) (s : Search) : Prop where
  gathered : Gathered p request s
  layered : Layered (Adjacent p request) (· ∈ request.seeds) request.maxDepth (frontier s)
  joined : ∀ fact, Edge p request fact → Done s fact.source → Done s fact.target → s.facts[fact.id]? = some fact
  left : ∀ fact ∈ p.facts, factIsActive p fact (clockOf request) = true →
    relationAllowed request fact.relation = true → ∀ u v, Joins fact u v → Done s u →
      outOfScope p request v = true → fact.id ∈ s.excluded

def visitAll (p : MemoryProjection) (request : ContextRequest) (current : EntityId) (depth : Nat) (s : Search)
    (rest : List EntityId) : Search :=
  (incident p current).foldl (visited p request current depth) { s with queue := rest }

theorem Searching.round (hp : Valid p) (h : Searching p request s) {rest : List EntityId}
    (hq : s.queue = current :: rest) (hd : s.distances[current]? = some depth) :
    Searching p request (visitAll p request current depth s rest) ∧
      remaining (p.nodes.map NodeHistory.id) (frontier (visitAll p request current depth s rest)) <
        remaining (p.nodes.map NodeHistory.id) (frontier s) := by
  have hc : s.distances.contains current = true := contains_iff.mpr ⟨depth, hd⟩
  have hcurrent := h.gathered.vertices current hc
  have hfrontier : frontier (visitAll p request current depth s rest) = expand request.maxDepth depth
      ⟨(frontier s).distance, rest⟩ ((incident p current).filterMap (neighbor p request current)) :=
    frontier_visitAll _
  have hpopped : Gathered p request { s with queue := rest } :=
    ⟨h.gathered.nodes, h.gathered.vertices, h.gathered.facts, h.gathered.excluded⟩
  obtain ⟨hgathered, hextends, hall⟩ := @visitAll_gathered p request current depth { s with queue := rest } hp
    (incident p current) (fun fact hf => mem_incident.mp hf) hpopped hc
  have hlayered := h.layered.expand hq hd (mem_neighbors hp hcurrent)
  obtain ⟨new, hgrown, -⟩ := @expand_grown _ request.maxDepth depth ⟨(frontier s).distance, rest⟩ _
    ((incident p current).filterMap (neighbor p request current))
  rw [← hfrontier] at hgrown hlayered
  -- What is done now was done before, or it is the entity of this round.
  have hdone : ∀ id, Done (visitAll p request current depth s rest) id → id = current ∨ Done s id := by
    intro id hid
    by_cases hsame : id = current
    · exact .inl hsame
    · obtain ⟨hcontains, hout⟩ := hid
      change id ∉ (frontier (visitAll p request current depth s rest)).queue at hout
      rw [hgrown.queue, List.mem_append, not_or] at hout
      refine .inr ⟨?_, ?_⟩
      · obtain ⟨n, hn⟩ := contains_iff.mp hcontains
        change (frontier (visitAll p request current depth s rest)).distance id = some n at hn
        obtain hn | ⟨hin, -⟩ := hgrown.found id n hn
        · exact contains_iff.mpr ⟨n, hn⟩
        · exact absurd hin hout.2
      · rw [hq, List.mem_cons, not_or]
        exact ⟨hsame, hout.1⟩
  have hknown : ∀ id, Done (visitAll p request current depth s rest) id → s.distances.contains id = true := by
    intro id hid
    obtain rfl | hid := hdone id hid
    · exact hc
    · exact hid.1
  refine ⟨⟨hgathered, hlayered, ?_, ?_⟩, ?_⟩
  · intro fact hedge hs ht
    obtain ⟨hf, hactive, hallowed, hsource, htarget⟩ := (edge_iff hp).mp hedge
    have hvisited : ∀ v, Joins fact current v → Done (visitAll p request current depth s rest) v →
        Vertex p request v → (visitAll p request current depth s rest).facts[fact.id]? = some fact := by
      intro v hj hv hvertex
      have hn := neighbor_eq_some.mpr ⟨hactive, hallowed, otherEnd_of_joins hj, (vertex_iff hp).mp hvertex⟩
      exact (hall fact (mem_incident.mpr ⟨hf, hj.touches⟩)).2 v hn (hknown v hv)
    obtain hsame | hsdone := hdone fact.source hs
    · exact hvisited fact.target (.inl ⟨hsame, rfl⟩) ht htarget
    · obtain hsame | htdone := hdone fact.target ht
      · exact hvisited fact.source (.inr ⟨rfl, hsame⟩) hs hsource
      · exact hextends.facts _ _ (h.joined fact hedge hsdone htdone)
  · intro fact hf hactive hallowed u v hj hu hv
    obtain rfl | hu := hdone u hu
    · have hleaves := leaves_iff.mpr ⟨hactive, hallowed, (otherEnd_of_joins hj).symm ▸ (outOfScope_iff hp).mp hv⟩
      exact (hall fact (mem_incident.mpr ⟨hf, hj.touches⟩)).1 hleaves
    · exact hextends.excluded _ (h.left fact hf hactive hallowed u v hj hu hv)
  · have hpop := @remaining_pop _ (frontier s) (p.nodes.map NodeHistory.id) rest current hq
    have hle := @remaining_expand _ request.maxDepth depth ⟨(frontier s).distance, rest⟩ _
      (p.nodes.map NodeHistory.id) ((incident p current).filterMap (neighbor p request current)) (by
        intro v hv
        obtain ⟨fact, hf, hn⟩ := List.mem_filterMap.mp hv
        obtain ⟨hf, ht⟩ := mem_incident.mp hf
        exact vertex_mem hp (edge_of_neighbor hp hf ht hcurrent hn).2.2)
    rw [hfrontier, hpop]
    exact Nat.lt_succ_of_le hle

theorem foldlM_visitFact (hp : Valid p) {facts : List MemoryFact} (hfacts : ∀ fact ∈ facts, fact ∈ p.facts) :
    (facts.map MemoryFact.id).foldlM (visitFact p request current depth) s =
      .ok (facts.foldl (visited p request current depth) s) := by
  induction facts generalizing s with
  | nil => rfl
  | cons fact facts ih =>
      obtain ⟨hf, hfacts⟩ := List.forall_mem_cons.mp hfacts
      rw [List.map_cons, List.foldlM_cons, visitFact_eq hp hf, ok_bind, ih hfacts, List.foldl_cons]

theorem Searching.loop (hp : Valid p) {rounds : Nat} (h : Searching p request s)
    (hr : remaining (p.nodes.map NodeHistory.id) (frontier s) < rounds) :
    ∃ t, searchLoop p request rounds s = .ok t ∧ Searching p request t ∧ t.queue = [] := by
  induction rounds generalizing s with
  | zero => exact absurd hr (Nat.not_lt_zero _)
  | succ rounds ih =>
      rw [searchLoop]
      cases hq : s.queue with
      | nil => exact ⟨s, rfl, h, hq⟩
      | cons current rest =>
          have hin : current ∈ s.queue := by
            rw [hq]
            exact List.mem_cons_self
          obtain ⟨depth, hd⟩ := h.layered.queued current hin
          obtain ⟨hround, hless⟩ := h.round hp hq hd
          obtain ⟨t, hloop, ht⟩ := ih hround (by omega)
          refine ⟨t, ?_, ht⟩
          have hindex : indexMap s.distances current = .ok depth := by
            rw [indexMap, show s.distances[current]? = some depth from hd]
          simp only [hindex, hp.incidentFactIds_eq, ok_bind]
          rw [foldlM_visitFact hp fun fact hf => (List.mem_filter.mp hf).1, ok_bind]
          exact hloop

theorem mem_dedup {α : Type} [DecidableEq α] {xs : List α} {a : α} : a ∈ dedup xs ↔ a ∈ xs := by
  fun_induction dedup xs with
  | case1 => exact Iff.rfl
  | case2 b => exact Iff.rfl
  | case3 b rest ih => rw [ih, List.mem_cons, List.mem_cons, List.mem_cons, or_self_left]
  | case4 b c rest hne ih => rw [List.mem_cons, ih, ← List.mem_cons]

theorem mem_sortedSeeds {id : EntityId} : id ∈ sortedSeeds request ↔ id ∈ request.seeds := by
  rw [sortedSeeds, mem_dedup, List.mem_mergeSort]

theorem scopedNode_eq (hp : Valid p) {id : EntityId} {node : MemoryNode} (hs : shown p request id = some node)
    (hn : nodeAllowed request node = true) : scopedNode p request id = .ok node := by
  have hfilter : (some node).filter (nodeAllowed request) = some node := by simp [Option.filter, hn]
  rw [scopedNode, visibleNode_eq hp, ok_bind, hs, hfilter]

theorem startSearch_eq (hp : Valid p) {seeds : List EntityId} (hseeds : ∀ seed ∈ seeds, Vertex p request seed) :
    ∃ t, startSearch p request seeds s = .ok t ∧ t.facts = s.facts ∧ t.excluded = s.excluded ∧
      t.queue = s.queue ++ seeds ∧
      (∀ id, t.distances[id]? = if id ∈ seeds then some 0 else s.distances[id]?) ∧
      ∀ id, t.nodes[id]? = if id ∈ seeds then shown p request id else s.nodes[id]? := by
  induction seeds generalizing s with
  | nil => exact ⟨s, rfl, rfl, rfl, (List.append_nil _).symm, fun id => rfl, fun id => rfl⟩
  | cons seed seeds ih =>
      obtain ⟨hseed, hseeds⟩ := List.forall_mem_cons.mp hseeds
      obtain ⟨node, hs, hn⟩ := (vertex_iff hp).mp hseed
      obtain ⟨t, hstart, hfacts, hexcluded, hqueue, hdistances, hnodes⟩ := @ih
        { s with
          nodes := s.nodes.insert seed node
          distances := s.distances.insert seed 0
          queue := s.queue ++ [seed] } hseeds
      refine ⟨t, ?_, hfacts, hexcluded, ?_, fun id => ?_, fun id => ?_⟩
      · rw [startSearch, scopedNode_eq hp hs hn, ok_bind, hstart]
      · rw [hqueue, List.append_assoc, List.singleton_append]
      · rw [hdistances id, getElem?_insert]
        by_cases hid : id = seed <;> by_cases hin : id ∈ seeds <;> simp [hid, hin]
      · rw [hnodes id, getElem?_insert]
        by_cases hid : id = seed
        · subst hid
          simp [hs]
        · simp [hid]

theorem searching_start (hp : Valid p) (hseeds : ∀ seed ∈ request.seeds, Vertex p request seed) :
    ∃ t, startSearch p request (sortedSeeds request) ⟨∅, ∅, ∅, [], ∅⟩ = .ok t ∧ Searching p request t ∧
      remaining (p.nodes.map NodeHistory.id) (frontier t) < p.nodes.length + (sortedSeeds request).length + 1 := by
  obtain ⟨t, hstart, hfacts, hexcluded, hqueue, hdistances, hnodes⟩ := @startSearch_eq p request ⟨∅, ∅, ∅, [], ∅⟩ hp
    (sortedSeeds request) fun seed hs => hseeds seed (mem_sortedSeeds.mp hs)
  have hdistance : ∀ id n, t.distances[id]? = some n → id ∈ sortedSeeds request ∧ n = 0 := by
    intro id n hn
    rw [hdistances id] at hn
    split at hn
    · rename_i hin
      exact ⟨hin, (Option.some.inj hn).symm⟩
    · simp at hn
  have hcontains : ∀ id, t.distances.contains id = true ↔ id ∈ sortedSeeds request := by
    intro id
    rw [contains_iff]
    constructor
    · intro h
      obtain ⟨n, hn⟩ := h
      exact (hdistance id n hn).1
    · intro h
      exact ⟨0, by rw [hdistances id, if_pos h]⟩
  have hqueued : t.queue = sortedSeeds request := hqueue
  have hopen : ∀ id, ¬ Done t id := by
    intro id h
    apply h.2
    rw [hqueued]
    exact (hcontains id).mp h.1
  refine ⟨t, hstart, ⟨⟨fun id => ?_, fun id hid => ?_, fun id fact hf => ?_, fun id hid => ?_⟩,
    .start (fun v n => ?_) (fun v => ?_),
    fun fact _ hs => absurd hs (hopen _), fun fact _ _ _ u v _ hu => absurd hu (hopen _)⟩, ?_⟩
  · rw [hnodes id]
    by_cases hin : id ∈ sortedSeeds request
    · rw [if_pos hin, if_pos ((hcontains id).mpr hin)]
    · rw [if_neg hin, if_neg fun h => hin ((hcontains id).mp h)]
      simp
  · exact hseeds id (mem_sortedSeeds.mp ((hcontains id).mp hid))
  · rw [hfacts] at hf
    simp at hf
  · rw [hexcluded] at hid
    simp at hid
  · change t.distances[v]? = some n ↔ _
    constructor
    · intro hn
      obtain ⟨hin, hzero⟩ := hdistance v n hn
      exact ⟨mem_sortedSeeds.mp hin, hzero⟩
    · rintro ⟨hin, rfl⟩
      rw [hdistances v, if_pos (mem_sortedSeeds.mpr hin)]
  · change v ∈ t.queue ↔ _
    rw [hqueued, mem_sortedSeeds]
  · have hle := @remaining_le _ (frontier t) (p.nodes.map NodeHistory.id)
    rw [List.length_map, show (frontier t).queue = sortedSeeds request from hqueued] at hle
    exact Nat.lt_succ_of_le hle

theorem size_eq (hp : Valid p) {ids : BTreeSet FactId} {keep : MemoryFact → Bool}
    (h : ∀ id, id ∈ ids ↔ ∃ fact ∈ p.facts, fact.id = id ∧ keep fact = true) :
    ids.size = (p.facts.filter keep).length := by
  have hleft : ids.toList.Nodup := by
    apply (@Std.ExtTreeSet.distinct_toList _ _ ids _).imp
    intro a b hne heq
    exact hne (heq ▸ Std.ReflCmp.compare_self)
  have hright : ((p.facts.filter keep).map MemoryFact.id).Nodup :=
    hp.indexed.factLookup.nodup.sublist (List.filter_sublist.map MemoryFact.id)
  have hperm : ids.toList.Perm ((p.facts.filter keep).map MemoryFact.id) := by
    apply (List.perm_ext_iff_of_nodup hleft hright).mpr
    intro id
    rw [Std.ExtTreeSet.mem_toList, h id, List.mem_map]
    simp only [List.mem_filter, and_assoc, and_comm, and_left_comm]
  rw [← Std.ExtTreeSet.length_toList, hperm.length_eq, List.length_map]

theorem Searching.excluded_iff (h : Searching p request s) (hq : s.queue = []) (id : FactId) :
    id ∈ s.excluded ↔ ∃ fact ∈ p.facts, fact.id = id ∧ leavesScope p request s.distances fact = true := by
  have hdone : ∀ id, s.distances.contains id = true → Done s id := fun id hid => ⟨hid, hq ▸ List.not_mem_nil⟩
  refine ⟨h.gathered.excluded id, fun hfact => ?_⟩
  obtain ⟨fact, hf, rfl, hleaves⟩ := hfact
  obtain ⟨hactive, hallowed, ⟨hs, ht⟩ | ⟨ht, hs⟩⟩ := leavesScope_iff.mp hleaves
  · exact h.left fact hf hactive hallowed _ _ (.inl ⟨rfl, rfl⟩) (hdone _ hs) ht
  · exact h.left fact hf hactive hallowed _ _ (.inr ⟨rfl, rfl⟩) (hdone _ ht) hs

/-- What `neighborhood` returns of a search. -/
def Search.found (s : Search) : Compiler.Neighborhood where
  nodes := s.nodes
  facts := s.facts.filter fun _ fact => s.distances.contains fact.source && s.distances.contains fact.target
  distances := s.distances
  excluded := s.excluded.size

theorem neighborhood_found (hp : Valid p) (hseeds : ∀ seed ∈ request.seeds, Vertex p request seed) :
    ∃ s, neighborhood p request = .ok (Search.found s) ∧ Searching p request s ∧ s.queue = [] := by
  obtain ⟨first, hstart, hfirst, hremaining⟩ := searching_start hp hseeds
  obtain ⟨s, hloop, hs, hq⟩ := hfirst.loop hp hremaining
  refine ⟨s, ?_, hs, hq⟩
  rw [neighborhood]
  simp only [hstart, hloop, ok_bind]
  rfl

theorem Gathered.node_iff (hp : Valid p) (h : Gathered p request s) {id : EntityId} {node : MemoryNode} :
    s.nodes[id]? = some node ↔ s.distances.contains id = true ∧ Shown p request id node := by
  rw [h.nodes id]
  by_cases hc : s.distances.contains id = true
  · rw [if_pos hc, shown_eq_some hp]
    exact (and_iff_right hc).symm
  · rw [if_neg hc]
    exact iff_of_false nofun fun h => hc h.1

theorem Gathered.contains_eq (hp : Valid p) (h : Gathered p request s) (id : EntityId) :
    s.nodes.contains id = s.distances.contains id := by
  rw [Bool.eq_iff_iff, Std.ExtTreeMap.contains_eq_isSome_getElem?, Option.isSome_iff_exists]
  constructor
  · intro hid
    obtain ⟨node, hnode⟩ := hid
    exact ((h.node_iff hp).mp hnode).1
  · intro hid
    obtain ⟨node, hshown, -⟩ := h.vertices id hid
    exact ⟨node, (h.node_iff hp).mpr ⟨hid, hshown⟩⟩

theorem found_facts_iff {id : FactId} {fact : MemoryFact} : (Search.found s).facts[id]? = some fact ↔
    s.facts[id]? = some fact ∧ s.distances.contains fact.source = true ∧ s.distances.contains fact.target = true := by
  rw [Search.found, Std.ExtTreeMap.getElem?_filter', Option.filter_eq_some_iff, Bool.and_eq_true]

/-- The neighborhood of visible seeds is that part of the graph of the view which lies within the
depth, and what the scope keeps out of it is counted. -/
theorem neighborhood_exact (hp : Valid p) (hseeds : ∀ seed ∈ request.seeds, Vertex p request seed) :
    ∃ found, neighborhood p request = .ok found ∧
      (∀ id n, found.distances[id]? = some n ↔
        Distance (Adjacent p request) (· ∈ request.seeds) n id ∧ n ≤ request.maxDepth) ∧
      (∀ id node, found.nodes[id]? = some node ↔
        (∃ n, Distance (Adjacent p request) (· ∈ request.seeds) n id ∧ n ≤ request.maxDepth) ∧
          Shown p request id node) ∧
      (∀ id fact, found.facts[id]? = some fact ↔ fact.id = id ∧ Edge p request fact ∧
        found.nodes.contains fact.source = true ∧ found.nodes.contains fact.target = true) ∧
      found.excluded = (p.facts.filter (leavesScope p request found.distances)).length := by
  obtain ⟨s, hfound, hs, hq⟩ := neighborhood_found hp hseeds
  have hdistance := hs.layered.exact hq
  have hdone : ∀ id, s.distances.contains id = true → Done s id := fun id hid => ⟨hid, hq ▸ List.not_mem_nil⟩
  refine ⟨Search.found s, hfound, hdistance, fun id node => ?_, fun id fact => ?_, size_eq hp (hs.excluded_iff hq)⟩
  · change s.nodes[id]? = some node ↔ _
    rw [hs.gathered.node_iff hp, contains_iff]
    exact and_congr_left fun _ => exists_congr fun n => hdistance id n
  · change (Search.found s).facts[id]? = some fact ↔ fact.id = id ∧ Edge p request fact ∧
      s.nodes.contains fact.source = true ∧ s.nodes.contains fact.target = true
    rw [found_facts_iff, hs.gathered.contains_eq hp, hs.gathered.contains_eq hp]
    constructor
    · intro h
      obtain ⟨hfact, hends⟩ := h
      obtain ⟨hid, hedge⟩ := hs.gathered.facts id fact hfact
      exact ⟨hid, hedge, hends⟩
    · intro h
      obtain ⟨rfl, hedge, hsource, htarget⟩ := h
      exact ⟨hs.joined fact hedge (hdone _ hsource) (hdone _ htarget), hsource, htarget⟩

/-- Everything within one step of the task. -/
def aroundTask : ContextRequest where
  seeds := [Common.task]
  validAt := Common.ts 20
  knownAt := Common.ts 30
  tokenBudget := 100
  maxDepth := 1
  relations := ∅
  repositories := ∅
  branches := ∅

theorem neighborhood_exact_of_task :
    ∃ found, neighborhood (applyAll ⟨1, 2⟩ Common.retractedOnce) aroundTask = .ok found ∧
      ∀ id n, found.distances[id]? = some n ↔
        Distance (Adjacent (applyAll ⟨1, 2⟩ Common.retractedOnce) aroundTask) (· ∈ aroundTask.seeds) n id ∧ n ≤ 1 := by
  have hseeds : ∀ seed ∈ aroundTask.seeds, Vertex (applyAll ⟨1, 2⟩ Common.retractedOnce) aroundTask seed :=
    List.forall_mem_singleton.mpr ⟨Common.node Common.task, ⟨by decide +kernel, rfl⟩, by decide +kernel⟩
  obtain ⟨found, hfound, hdistances, -⟩ := neighborhood_exact (reached_applyAll ⟨1, 2⟩ Common.retractedOnce).valid
    hseeds
  exact ⟨found, hfound, hdistances⟩

end WeavatrixMemory.Context.Neighborhood
