import WeavatrixMemory.Library.Pairings
import WeavatrixMemory.Projection.History

namespace WeavatrixMemory.Projection.Views

open Error Identity Domain State Memory Invariant History

def nodeVisible (p : MemoryProjection) (id : EntityId) (knownAt : Timestamp) : Bool :=
  p.nodes.any fun history => history.id = id && (visibleRevision history knownAt).isSome

/-- The view without the shortcut: every fact's ends are looked up. -/
def plainView (p : MemoryProjection) (clock : ProjectionClock) : MemoryView where
  nodes := p.nodes.filterMap fun history => visibleRevision history clock.knownAt
  facts := p.facts.filter fun fact =>
    (nodeVisible p fact.source clock.knownAt && nodeVisible p fact.target clock.knownAt) &&
      factIsActive p fact clock

/-- `MemoryViewRef::into_owned`, which clones each node and each fact. -/
def intoOwned (view : MemoryView) : MemoryView where
  nodes := view.nodes.map fun node => node
  facts := view.facts.map fun fact => fact

variable {p : MemoryProjection} {clock : ProjectionClock}

theorem visible_of_known {history : NodeHistory} {knownAt : Timestamp} :
    (visibleRevision history knownAt).isSome = true ↔
      ∃ revision ∈ history.revisions, revision.recordedAt ≤ knownAt := by
  rw [Option.isSome_iff_ne_none, ne_eq, visibleRevision_eq_none]
  simp

theorem nodeVisible_iff {id : EntityId} {knownAt : Timestamp} :
    nodeVisible p id knownAt = true ↔ EntityKnown p id knownAt := by
  rw [nodeVisible, List.any_eq_true]
  apply exists_congr
  intro history
  rw [Bool.and_eq_true, decide_eq_true_iff, visible_of_known]

/-- Skipping the lookups when every node is visible leaves the same facts. -/
theorem viewRef_eq_plainView (hp : Valid p) : viewRef p clock = plainView p clock := by
  have hview := view_eq hp clock
  rw [view] at hview
  rw [hview, plainView]
  congr 1
  apply List.filter_congr
  intro fact _
  congr 1
  rw [Bool.eq_iff_iff, Bool.and_eq_true, nodeVisible_iff, nodeVisible_iff]
  exact decide_eq_true_iff

theorem endpoints_in_view (hp : Valid p) {fact : MemoryFact} (h : fact ∈ (viewRef p clock).facts) :
    fact.source ∈ (viewRef p clock).nodes.map MemoryNode.id ∧
      fact.target ∈ (viewRef p clock).nodes.map MemoryNode.id := by
  rw [viewRef_eq_plainView hp, plainView, List.mem_filter, Bool.and_eq_true, Bool.and_eq_true, nodeVisible_iff,
    nodeVisible_iff] at h
  obtain ⟨-, ⟨hsource, htarget⟩, -⟩ := h
  exact ⟨(mem_visibleNodes_ids hp).mpr hsource, (mem_visibleNodes_ids hp).mpr htarget⟩

theorem view_ids_nodup (hp : Valid p) : ((viewRef p clock).nodes.map MemoryNode.id).Nodup ∧
    ((viewRef p clock).facts.map MemoryFact.id).Nodup := by
  constructor
  · exact hp.sound.nodeIds.sublist (Pairings.filterMap_sublist fun history hh node hv => visibleRevision_id hp hh hv)
  · exact hp.sound.factIds.sublist (List.filter_sublist.map _)

/-- The borrowed view is the plain one, closed under the ends of its facts and without repetition. -/
theorem view_sound (p : MemoryProjection) (hp : Valid p) (clock : ProjectionClock) :
    viewRef p clock = plainView p clock ∧
    (∀ fact ∈ (viewRef p clock).facts,
      (∃ node ∈ (viewRef p clock).nodes, node.id = fact.source) ∧
        ∃ node ∈ (viewRef p clock).nodes, node.id = fact.target) ∧
    ((viewRef p clock).nodes.map MemoryNode.id).Nodup ∧ ((viewRef p clock).facts.map MemoryFact.id).Nodup ∧
    view p clock = intoOwned (viewRef p clock) := by
  obtain ⟨hnodes, hfacts⟩ := @view_ids_nodup _ clock hp
  refine ⟨viewRef_eq_plainView hp, fun fact hf => ?_, hnodes, hfacts, ?_⟩
  · obtain ⟨hsource, htarget⟩ := endpoints_in_view hp hf
    exact ⟨List.mem_map.mp hsource, List.mem_map.mp htarget⟩
  · rw [view, intoOwned, List.map_id', List.map_id']

theorem view_sound_retracted_once :
    viewRef (applyAll ⟨1, 2⟩ Common.retractedOnce) ⟨Common.ts 25, Common.ts 45⟩ =
      plainView (applyAll ⟨1, 2⟩ Common.retractedOnce) ⟨Common.ts 25, Common.ts 45⟩ ∧
    (plainView (applyAll ⟨1, 2⟩ Common.retractedOnce) ⟨Common.ts 25, Common.ts 45⟩).facts.length = 1 :=
  ⟨(view_sound _ (reached_applyAll ⟨1, 2⟩ _).valid ⟨Common.ts 25, Common.ts 45⟩).1, by decide +kernel⟩

end WeavatrixMemory.Projection.Views
