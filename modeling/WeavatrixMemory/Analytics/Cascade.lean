import WeavatrixMemory.Analytics.Model
import WeavatrixMemory.Context.Compiler
import WeavatrixMemory.GraphProjection
import WeavatrixMemory.Library.Breadth
import WeavatrixMemory.Library.Sorting

namespace WeavatrixMemory.Analytics.Cascade

open Error Identity Domain GraphProjection Analytics.Model Breadth Sorting
open Context.Compiler (indexMap)

/-- What the cascade asks of a graph. -/
structure Adjacency (crate : GraphCrate) where
  nodeIndex : crate.Graph → Text → Option Nat
  outgoingNeighborsAt : crate.Graph → Nat → List Nat
  nodeAt : crate.Graph → Nat → Option crate.Node
  idText : crate.NodeId → Text

structure Spread where
  distances : BTreeMap EntityId Nat
  queue : List EntityId

def revisedConfidence (confidence : UInt16) (depth : Nat) : UInt16 :=
  let divisor := if depth + 2 < 2 ^ 32 then depth + 2 else 2 ^ 32 - 1
  u16Or 0 (10000 - confidence.toNat / divisor)

variable {crate : GraphCrate} (adjacency : Adjacency crate)

def entityAt (graph : crate.Graph) (index : Nat) : Option EntityId :=
  match adjacency.nodeAt graph index with
  | none => none
  | some node =>
      match TextId.new (adjacency.idText (crate.nodeId node)) with
      | .error _ => none
      | .ok next => some next

def visitNeighbor (graph : crate.Graph) (depth : Nat) (s : Spread) (neighbor : Nat) : Spread :=
  match entityAt adjacency graph neighbor with
  | none => s
  | some next =>
      if s.distances.contains next then s
      else ⟨s.distances.insert next (depth + 1), s.queue ++ [next]⟩

/-- The loop over the queue, with a bound on the rounds. -/
def cascadeLoop (graph : crate.Graph) (maxDepth : Nat) : Nat → Spread → Result Spread
  | 0, _ => .error .panicked
  | rounds + 1, s =>
      match s.queue with
      | [] => .ok s
      | entity :: rest => do
          let depth ← indexMap s.distances entity
          let s : Spread := { s with queue := rest }
          if maxDepth ≤ depth then cascadeLoop graph maxDepth rounds s
          else match adjacency.nodeIndex graph entity.text with
            | none => cascadeLoop graph maxDepth rounds s
            | some index =>
                cascadeLoop graph maxDepth rounds
                  ((adjacency.outgoingNeighborsAt graph index).foldl (visitNeighbor adjacency graph depth) s)

def startCascade (roots : BTreeSet EntityId) : Spread :=
  roots.toList.foldl (fun s root => ⟨s.distances.insert root 0, s.queue ++ [root]⟩) ⟨∅, []⟩

def effectOf (confidence : UInt16) (entry : EntityId × Nat) : CascadeEffect where
  entity := entry.1
  depth := entry.2
  revisedConfidenceBps := revisedConfidence confidence entry.2

def cascade (graph : crate.Graph) (roots : BTreeSet EntityId) (maxDepth : Nat) (hypothesisConfidence : UInt16)
    (rounds : Nat) : Result (List CascadeEffect) := do
  let s ← cascadeLoop adjacency graph maxDepth rounds (startCascade roots)
  .ok (s.distances.toList.map (effectOf hypothesisConfidence))

def neighborsAt (graph : crate.Graph) (index : Nat) : List EntityId :=
  (adjacency.outgoingNeighborsAt graph index).filterMap (entityAt adjacency graph)

structure Presents (graph : crate.Graph) (vertices : List EntityId) (Adj : EntityId → EntityId → Prop) : Prop where
  index : ∀ v ∈ vertices, ∃ i, adjacency.nodeIndex graph v.text = some i
  neighbors : ∀ v i, adjacency.nodeIndex graph v.text = some i → ∀ w, w ∈ neighborsAt adjacency graph i ↔ Adj v w
  closed : ∀ v w, Adj v w → w ∈ vertices

variable {adjacency} {graph : crate.Graph} {vertices : List EntityId} {Adj : EntityId → EntityId → Prop}
  {s : Spread} {maxDepth depth rounds : Nat}

theorem toNat_revisedConfidence (confidence : UInt16) (depth : Nat) :
    (revisedConfidence confidence depth).toNat = 10000 - confidence.toNat / min (depth + 2) (2 ^ 32 - 1) := by
  have hdivisor : (if depth + 2 < 2 ^ 32 then depth + 2 else 2 ^ 32 - 1) = min (depth + 2) (2 ^ 32 - 1) := by
    split <;> omega
  have hlt : 10000 - confidence.toNat / min (depth + 2) (2 ^ 32 - 1) < 2 ^ 16 :=
    lt_of_le_of_lt (Nat.sub_le _ _) (by decide)
  rw [revisedConfidence, hdivisor, u16Or, if_pos hlt, UInt16.toNat_ofNat_of_lt' hlt]

theorem revisedConfidence_mono (confidence : UInt16) {depth deeper : Nat} (h : depth ≤ deeper) :
    revisedConfidence confidence depth ≤ revisedConfidence confidence deeper := by
  rw [UInt16.le_iff_toNat_le, toNat_revisedConfidence, toNat_revisedConfidence]
  apply Nat.sub_le_sub_left
  apply Nat.div_le_div_left
  · exact min_le_min_right _ (Nat.add_le_add_right h 2)
  · exact lt_min (Nat.zero_lt_succ _) (by decide)

theorem revisedConfidence_ge {confidence : UInt16} :
    5000 ≤ revisedConfidence confidence 0 ↔ confidence ≤ 10001 := by
  rw [UInt16.le_iff_toNat_le, UInt16.le_iff_toNat_le, toNat_revisedConfidence]
  change 5000 ≤ 10000 - confidence.toNat / 2 ↔ confidence.toNat ≤ 10001
  omega

def frontier (s : Spread) : Frontier EntityId := ⟨fun id => s.distances[id]?, s.queue⟩

theorem frontier_visitNeighbor (h : depth < maxDepth) (neighbor : Nat) :
    frontier (visitNeighbor adjacency graph depth s neighbor) =
      (entityAt adjacency graph neighbor).elim (frontier s) (discover maxDepth depth (frontier s)) := by
  rw [visitNeighbor]
  cases entityAt adjacency graph neighbor with
  | none => rfl
  | some next =>
      rw [Option.elim_some, discover]
      by_cases hnew : s.distances[next]? = none
      · have hcontains : s.distances.contains next = false := by
          rw [Std.ExtTreeMap.contains_eq_isSome_getElem?, hnew]
          rfl
        simp only [hcontains, Bool.false_eq_true, if_false]
        rw [if_pos ⟨hnew, h⟩]
        rw [frontier, insert_eq_update]
        rfl
      · have hcontains : s.distances.contains next = true := by
          rw [Std.ExtTreeMap.contains_eq_isSome_getElem?, Option.isSome_iff_ne_none]
          exact hnew
        simp only [hcontains, if_true]
        rw [if_neg fun hn => hnew hn.1]

theorem frontier_visitAll (h : depth < maxDepth) (neighbors : List Nat) :
    frontier (neighbors.foldl (visitNeighbor adjacency graph depth) s) =
      expand maxDepth depth (frontier s) (neighbors.filterMap (entityAt adjacency graph)) :=
  expand_filterMap (fun _ neighbor => frontier_visitNeighbor h neighbor) neighbors s

theorem Presents.walk_mem (h : Presents adjacency graph vertices Adj) {Source : EntityId → Prop}
    (hsource : ∀ v, Source v → v ∈ vertices) {n : Nat} {v : EntityId} (hwalk : Walk Adj Source n v) : v ∈ vertices := by
  cases hwalk with
  | source hv => exact hsource v hv
  | step _ hadj => exact h.closed _ _ hadj

/-- The cascade comes to its end, with all that is within the depth. -/
theorem Presents.loop (h : Presents adjacency graph vertices Adj) {Source : EntityId → Prop}
    (hsource : ∀ v, Source v → v ∈ vertices) (hs : Layered Adj Source maxDepth (frontier s))
    (hrounds : remaining vertices (frontier s) < rounds) :
    ∃ t, cascadeLoop adjacency graph maxDepth rounds s = .ok t ∧ Layered Adj Source maxDepth (frontier t) ∧
      t.queue = [] := by
  induction rounds generalizing s with
  | zero => exact absurd hrounds (Nat.not_lt_zero _)
  | succ rounds ih =>
      rw [cascadeLoop]
      cases hq : s.queue with
      | nil => exact ⟨s, rfl, hs, hq⟩
      | cons entity rest =>
          have hin : entity ∈ s.queue := by
            rw [hq]
            exact List.mem_cons_self
          obtain ⟨n, hn⟩ := hs.queued entity hin
          have hindex : indexMap s.distances entity = .ok n := by
            rw [indexMap, show s.distances[entity]? = some n from hn]
          obtain ⟨i, hi⟩ := h.index entity (h.walk_mem hsource (hs.walk entity n hn).1)
          have hneighbors := h.neighbors entity i hi
          have hnext := hs.expand hq hn hneighbors
          have hclosed : ∀ w ∈ neighborsAt adjacency graph i, w ∈ vertices := fun w hw =>
            h.closed entity w ((hneighbors w).mp hw)
          have hless := @remaining_expand _ maxDepth n ⟨(frontier s).distance, rest⟩ _ vertices _ hclosed
          rw [@remaining_pop _ (frontier s) vertices rest entity hq] at hrounds
          simp only [hindex, ok_bind, hi]
          by_cases hbound : maxDepth ≤ n
          · rw [expand_of_le hbound] at hnext
            rw [if_pos hbound]
            exact @ih ⟨s.distances, rest⟩ hnext (Nat.lt_of_succ_lt_succ hrounds)
          · rw [if_neg hbound]
            have hvisited := @frontier_visitAll _ adjacency graph ⟨s.distances, rest⟩ _ _ (not_le.mp hbound)
              (adjacency.outgoingNeighborsAt graph i)
            refine ih ?_ ?_
            · rw [hvisited]
              exact hnext
            · rw [hvisited]
              exact lt_of_le_of_lt hless (Nat.lt_of_succ_lt_succ hrounds)

theorem startCascade_eq (roots : List EntityId) (s : Spread) :
    let t : Spread := roots.foldl (fun s root => ⟨s.distances.insert root 0, s.queue ++ [root]⟩) s
    t.queue = s.queue ++ roots ∧ ∀ id, t.distances[id]? = if id ∈ roots then some 0 else s.distances[id]? := by
  induction roots generalizing s with
  | nil => exact ⟨(List.append_nil _).symm, fun id => rfl⟩
  | cons root rest ih =>
      obtain ⟨hqueue, hdistances⟩ := ih ⟨s.distances.insert root 0, s.queue ++ [root]⟩
      refine ⟨?_, fun id => ?_⟩
      · rw [List.foldl_cons, hqueue, List.append_assoc, List.singleton_append]
      · rw [List.foldl_cons, hdistances id, getElem?_insert]
        by_cases hid : id = root <;> by_cases hin : id ∈ rest <;> simp [hid, hin]

theorem layered_startCascade (roots : BTreeSet EntityId) :
    Layered Adj (· ∈ roots) maxDepth (frontier (startCascade roots)) ∧
      remaining vertices (frontier (startCascade roots)) ≤ vertices.length + roots.size := by
  obtain ⟨hqueue, hdistances⟩ := startCascade_eq roots.toList ⟨∅, []⟩
  have hqueue : (frontier (startCascade roots)).queue = roots.toList := hqueue
  have hdistance (id : EntityId) :
      (frontier (startCascade roots)).distance id = if id ∈ roots then some 0 else none := by
    have hid := hdistances id
    simp only [Std.ExtTreeSet.mem_toList, Std.ExtTreeMap.getElem?_empty] at hid
    exact hid
  refine ⟨.start (fun id n => ?_) fun id => ?_, ?_⟩
  · rw [hdistance id, Option.ite_none_right_eq_some, Option.some.injEq, @eq_comm _ 0]
  · rw [hqueue, Std.ExtTreeSet.mem_toList]
  · have hle := @remaining_le _ (frontier (startCascade roots)) vertices
    rwa [hqueue, Std.ExtTreeSet.length_toList] at hle

theorem Presents.cascade (h : Presents adjacency graph vertices Adj) {roots : BTreeSet EntityId}
    (hroots : ∀ root ∈ roots, root ∈ vertices) (confidence : UInt16) :
    ∃ effects, Cascade.cascade adjacency graph roots maxDepth confidence (vertices.length + roots.size + 1) =
      .ok effects ∧ (effects.map CascadeEffect.entity).Nodup ∧
      ∀ effect, effect ∈ effects ↔ (Distance Adj (· ∈ roots) effect.depth effect.entity ∧ effect.depth ≤ maxDepth) ∧
        effect.revisedConfidenceBps = revisedConfidence confidence effect.depth := by
  obtain ⟨hlayered, hremaining⟩ := @layered_startCascade vertices Adj maxDepth roots
  obtain ⟨t, ht, hs, hq⟩ := h.loop hroots hlayered (Nat.lt_succ_of_le hremaining)
  refine ⟨t.distances.toList.map (effectOf confidence), ?_, ?_, fun effect => ?_⟩
  · rw [Cascade.cascade, ht, ok_bind]
  · rw [List.map_map]
    exact nodup_keys t.distances
  · have hentry (id : EntityId) (n : Nat) : (id, n) ∈ t.distances.toList ↔
        Distance Adj (· ∈ roots) n id ∧ n ≤ maxDepth :=
      Std.ExtTreeMap.mem_toList_iff_getElem?_eq_some.trans (hs.exact hq id n)
    rw [List.mem_map]
    constructor
    · rintro ⟨⟨id, n⟩, hin, rfl⟩
      exact ⟨(hentry id n).mp hin, rfl⟩
    · rintro ⟨hdistance, hrevised⟩
      refine ⟨(effect.entity, effect.depth), (hentry _ _).mpr hdistance, ?_⟩
      rw [effectOf, ← hrevised]

theorem sorted_cascade {roots : BTreeSet EntityId} {confidence : UInt16} {effects : List CascadeEffect}
    (h : Cascade.cascade adjacency graph roots maxDepth confidence rounds = .ok effects) :
    effects.Pairwise fun left right => compareOn CascadeEffect.entity left right = .lt := by
  obtain ⟨s, -, h⟩ := bind_eq_ok.mp h
  obtain rfl := Except.ok.inj h
  exact List.pairwise_map.mpr Std.ExtTreeMap.ordered_keys_toList

theorem Presents.listing_cascade (h : Presents adjacency graph vertices Adj) {roots : BTreeSet EntityId}
    (hroots : ∀ root ∈ roots, root ∈ vertices) {confidence : UInt16} {effects : List CascadeEffect}
    (heffects : Cascade.cascade adjacency graph roots maxDepth confidence (vertices.length + roots.size + 1) =
      .ok effects) :
    Listing (compareOn CascadeEffect.entity) (fun effect =>
      (Distance Adj (· ∈ roots) effect.depth effect.entity ∧ effect.depth ≤ maxDepth) ∧
        effect.revisedConfidenceBps = revisedConfidence confidence effect.depth) effects := by
  obtain ⟨found, hfound, -, hmem⟩ := @Presents.cascade _ _ _ _ _ maxDepth h roots hroots confidence
  rw [heffects] at hfound
  obtain rfl := Except.ok.inj hfound
  exact ⟨sorted_cascade heffects, hmem⟩

end WeavatrixMemory.Analytics.Cascade
