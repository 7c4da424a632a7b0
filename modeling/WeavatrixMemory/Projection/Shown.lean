import WeavatrixMemory.Projection.Batches
import WeavatrixMemory.Projection.Revisions

namespace WeavatrixMemory.Projection.Shown

open Error Identity Domain State Memory Admission Invariant Batches History Revisions

def shownRevision (p : MemoryProjection) (id : EntityId) (knownAt : Timestamp) : Option NodeRevision :=
  maxBy keyLe ((revisionsIn p id).filter fun revision => revision.recordedAt ≤ knownAt)

def TakesOver (p : MemoryProjection) (revision : NodeRevision) (knownAt : Timestamp) : Prop :=
  revision.recordedAt ≤ knownAt ∧
    ∀ shown, shownRevision p revision.node.id knownAt = some shown → keyLe shown revision = true

variable {p q : MemoryProjection} {id : EntityId} {knownAt : Timestamp} {events : List (StoredEvent MemoryEvent)}

theorem maxBy_snoc {α : Type} {le : α → α → Bool} {xs : List α} {a b : α} (h : maxBy le xs = some a) :
    maxBy le (xs ++ [b]) = some (if le a b then b else a) := by
  cases xs with
  | nil => cases h
  | cons x xs =>
      obtain rfl := Option.some.inj h
      rw [List.cons_append, maxBy, List.foldl_append]
      rfl

theorem shownRevision_snoc {revision : NodeRevision} (hid : revision.node.id = id)
    (h : revisionsIn q id = revisionsIn p id ++ [revision]) : (TakesOver p revision knownAt →
      shownRevision q id knownAt = some revision) ∧
    (¬ TakesOver p revision knownAt → shownRevision q id knownAt = shownRevision p id knownAt) := by
  subst hid
  have hfilter : (revisionsIn q revision.node.id).filter (fun revision => revision.recordedAt ≤ knownAt) =
      (revisionsIn p revision.node.id).filter (fun revision => revision.recordedAt ≤ knownAt) ++
        if revision.recordedAt ≤ knownAt then [revision] else [] := by
    rw [h, List.filter_append, List.filter_singleton]
    simp only [Bool.cond_decide]
  constructor
  · rintro ⟨hrecorded, hbehind⟩
    rw [shownRevision, hfilter, if_pos hrecorded]
    rw [shownRevision] at hbehind
    cases hshown : maxBy keyLe
        ((revisionsIn p revision.node.id).filter fun revision => revision.recordedAt ≤ knownAt) with
    | none =>
        rw [maxBy_eq_none.mp hshown]
        rfl
    | some shown => rw [maxBy_snoc hshown, if_pos (hbehind shown hshown)]
  · intro hnot
    rw [shownRevision, hfilter, shownRevision]
    by_cases hrecorded : revision.recordedAt ≤ knownAt
    · rw [if_pos hrecorded]
      rw [TakesOver, and_iff_right hrecorded] at hnot
      push Not at hnot
      obtain ⟨shown, hshown, hahead⟩ := hnot
      rw [shownRevision] at hshown
      rw [maxBy_snoc hshown, if_neg hahead, hshown]
    · rw [if_neg hrecorded, List.append_nil]

theorem revisionsIn_applyEach (hp : Valid p) (h : applyEach events p = .ok q) :
    Valid q ∧ ∀ id, revisionsIn q id = revisionsIn p id ++ revisionsOf events id := by
  induction events generalizing p with
  | nil =>
      obtain rfl := Except.ok.inj h
      exact ⟨hp, fun id => (List.append_nil _).symm⟩
  | cons event rest ih =>
      rw [applyEach, List.foldlM_cons] at h
      obtain ⟨next, hnext, h⟩ := bind_eq_ok.mp h
      obtain ⟨change, ha, rfl⟩ := accepted_eq (.inl (runOn_eq_ok.mp hnext))
      obtain ⟨hq, hrevisions⟩ := ih (hp.applied ha) h
      refine ⟨hq, fun id => ?_⟩
      rw [hrevisions, revisionsIn_applied hp ha, List.append_assoc, revisionsOf, revisionsOf, ← List.filterMap_append,
        List.singleton_append, revisionsOf]

theorem revisionsOf_append (first second : List (StoredEvent MemoryEvent)) (id : EntityId) :
    revisionsOf (first ++ second) id = revisionsOf first id ++ revisionsOf second id := List.filterMap_append

theorem revisionsOf_upserting {nodes : List MemoryNode} (h : List.Forall₂ Upserting nodes events)
    (hnodup : (nodes.map MemoryNode.id).Nodup) (id : EntityId) :
    revisionsOf events id = [] ∨
      ∃ revision, revisionsOf events id = [revision] ∧ revision.node ∈ nodes ∧ revision.node.id = id := by
  induction h with
  | nil => exact .inl rfl
  | @cons node event nodes rest hnode _ ih =>
      obtain ⟨hnew, hnodup⟩ := List.nodup_cons.mp hnodup
      obtain ⟨metadata, payload⟩ := event
      obtain rfl : payload = .nodeUpserted node := hnode.payload
      rw [← List.singleton_append, revisionsOf_append, revisionsOf_upsert]
      by_cases hid : node.id = id
      · subst hid
        rw [if_pos rfl]
        refine .inr ⟨⟨node, metadata.recordedAt, metadata.globalPosition⟩, ?_, List.mem_cons_self, rfl⟩
        obtain hnone | ⟨revision, -, hmem, hsame⟩ := ih hnodup
        · rw [hnone, List.append_nil]
        · exact absurd (List.mem_map.mpr ⟨revision.node, hmem, hsame⟩) hnew
      · rw [if_neg hid, List.nil_append]
        refine (ih hnodup).imp_right ?_
        rintro ⟨revision, hrevision, hmem, hsame⟩
        exact ⟨revision, hrevision, List.mem_cons_of_mem _ hmem, hsame⟩

theorem revisionsOf_recording {facts : List MemoryFact} (h : List.Forall₂ Recording facts events) (id : EntityId) :
    revisionsOf events id = [] := by
  induction h with
  | nil => rfl
  | @cons fact event facts rest hfact _ ih =>
      obtain ⟨metadata, payload⟩ := event
      obtain rfl : payload = .factRecorded fact := hfact.payload
      rw [← List.singleton_append, revisionsOf_append, ih]
      rfl

theorem mem_view_nodes (hp : Valid p) {clock : ProjectionClock} {node : MemoryNode} :
    node ∈ (view p clock).nodes ↔ ∃ id shown, shownRevision p id clock.knownAt = some shown ∧ shown.node = node := by
  rw [view_eq hp, visibleNodes, List.mem_filterMap]
  constructor
  · rintro ⟨history, hh, hv⟩
    rw [visibleRevision, Option.map_eq_some_iff] at hv
    obtain ⟨shown, hshown, rfl⟩ := hv
    refine ⟨history.id, shown, ?_, rfl⟩
    rw [shownRevision, revisionsIn_of_mem hp hh]
    exact hshown
  · rintro ⟨id, shown, hshown, rfl⟩
    by_cases hid : id ∈ p.nodes.map NodeHistory.id
    · obtain ⟨history, hh, rfl⟩ := List.mem_map.mp hid
      rw [shownRevision, revisionsIn_of_mem hp hh] at hshown
      exact ⟨history, hh, Option.map_eq_some_iff.mpr ⟨shown, hshown, rfl⟩⟩
    · rw [shownRevision, revisionsIn_of_not_mem hid] at hshown
      cases hshown

end WeavatrixMemory.Projection.Shown
