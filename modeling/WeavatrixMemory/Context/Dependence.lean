import WeavatrixMemory.Context.Bundles

namespace WeavatrixMemory.Context.Dependence

open Error Identity Domain Projection.State Projection.Memory Projection.Invariant Projection.History Compiler Breadth
open Neighborhood Bundles GraphProjection Snapshot.Routes

/-- Two projections that show the same at the clock of a request, in whatever order. -/
structure SameView (p q : MemoryProjection) (request : ContextRequest) : Prop where
  left : Valid p
  right : Valid q
  nodes : (viewRef p (clockOf request)).nodes.Perm (viewRef q (clockOf request)).nodes
  facts : (viewRef p (clockOf request)).facts.Perm (viewRef q (clockOf request)).facts

variable {p q : MemoryProjection} {request : ContextRequest}

theorem SameView.shown_eq (h : SameView p q request) (id : EntityId) : shown p request id = shown q request id := by
  refine Option.ext fun node => ?_
  rw [shown_eq_some h.left, shown_eq_some h.right, Neighborhood.Shown, Neighborhood.Shown, h.nodes.mem_iff]

theorem SameView.vertex_iff (h : SameView p q request) (id : EntityId) : Vertex p request id ↔ Vertex q request id := by
  rw [Neighborhood.vertex_iff h.left, Neighborhood.vertex_iff h.right, h.shown_eq]

theorem SameView.edge_iff (h : SameView p q request) (fact : MemoryFact) :
    Edge p request fact ↔ Edge q request fact := by
  constructor
  · intro he
    exact ⟨h.facts.mem_iff.mp he.viewed, he.allowed, (h.vertex_iff _).mp he.source, (h.vertex_iff _).mp he.target⟩
  · intro he
    exact ⟨h.facts.mem_iff.mpr he.viewed, he.allowed, (h.vertex_iff _).mpr he.source, (h.vertex_iff _).mpr he.target⟩

theorem SameView.adjacent_eq (h : SameView p q request) : Adjacent p request = Adjacent q request := by
  funext u v
  exact propext (exists_congr fun fact => and_congr_left' (h.edge_iff fact))

theorem entityKnown_of_shown (hp : Valid p) {id : EntityId} {node : MemoryNode} (h : shown p request id = some node) :
    EntityKnown p id request.knownAt := by
  obtain ⟨hmem, hid⟩ := (shown_eq_some hp).mp h
  exact (mem_visibleNodes_ids hp).mp (List.mem_map.mpr ⟨node, hmem, hid⟩)

theorem leaving_iff (hp : Valid p) {found : BTreeMap EntityId Nat} (hfound : ∀ id, found.contains id = true →
    Vertex p request id) (fact : MemoryFact) : fact ∈ p.facts ∧ leavesScope p request found fact = true ↔
      fact ∈ (viewRef p (clockOf request)).facts ∧ relationAllowed request fact.relation = true ∧
        (found.contains fact.source = true ∧ outOfScope p request fact.target = true ∨
          found.contains fact.target = true ∧ outOfScope p request fact.source = true) := by
  rw [leavesScope_iff, show viewRef p (clockOf request) = view p (clockOf request) from rfl, view_eq hp]
  simp only [List.mem_filter, Bool.and_eq_true, decide_eq_true_iff]
  constructor
  · rintro ⟨hmem, hactive, hallowed, hends⟩
    have hshown :
        ∀ id, found.contains id = true ∨ outOfScope p request id = true → EntityKnown p id request.knownAt := by
      rintro id (hid | hid)
      · obtain ⟨node, hn, -⟩ := (Neighborhood.vertex_iff hp).mp (hfound id hid)
        exact entityKnown_of_shown hp hn
      · obtain ⟨node, hn, -⟩ := (outOfScope_iff hp).mp hid
        exact entityKnown_of_shown hp hn
    refine ⟨⟨hmem, ?_, hactive⟩, hallowed, hends⟩
    obtain ⟨hsource, htarget⟩ | ⟨htarget, hsource⟩ := hends
    · exact ⟨hshown _ (.inl hsource), hshown _ (.inr htarget)⟩
    · exact ⟨hshown _ (.inr hsource), hshown _ (.inl htarget)⟩
  · rintro ⟨⟨hmem, -, hactive⟩, hallowed, hends⟩
    exact ⟨hmem, hactive, hallowed, hends⟩

theorem SameView.outOfScope_eq (h : SameView p q request) (id : EntityId) :
    outOfScope p request id = outOfScope q request id := by
  rw [Bool.eq_iff_iff, outOfScope_iff h.left, outOfScope_iff h.right, h.shown_eq]

theorem SameView.found_eq (h : SameView p q request) {s t : Search} (hs : Searching p request s)
    (ht : Searching q request t) (hsq : s.queue = []) (htq : t.queue = []) :
    Neighborhood.Search.found s = Neighborhood.Search.found t := by
  have hdistances : s.distances = t.distances := by
    refine Std.ExtTreeMap.ext_getElem? fun id => Option.ext fun n => ?_
    have hexact := hs.layered.exact hsq id n
    rw [h.adjacent_eq] at hexact
    exact hexact.trans (ht.layered.exact htq id n).symm
  have hnodes : s.nodes = t.nodes := by
    refine Std.ExtTreeMap.ext_getElem? fun id => ?_
    rw [hs.gathered.nodes, ht.gathered.nodes, hdistances, h.shown_eq]
  have hdone : ∀ {p : MemoryProjection} {s : Search}, s.queue = [] → ∀ id, s.distances.contains id = true →
      Neighborhood.Done s id := fun hq id hid => ⟨hid, hq ▸ List.not_mem_nil⟩
  have hfacts : (Neighborhood.Search.found s).facts = (Neighborhood.Search.found t).facts := by
    refine Std.ExtTreeMap.ext_getElem? fun id => Option.ext fun fact => ?_
    rw [found_facts_iff, found_facts_iff, hdistances]
    refine and_congr_left fun hends => ?_
    constructor
    · intro hfact
      obtain ⟨rfl, hedge⟩ := hs.gathered.facts id fact hfact
      exact ht.joined fact ((h.edge_iff fact).mp hedge) (hdone (p := q) htq _ hends.1) (hdone (p := q) htq _ hends.2)
    · intro hfact
      obtain ⟨rfl, hedge⟩ := ht.gathered.facts id fact hfact
      rw [← hdistances] at hends
      exact hs.joined fact ((h.edge_iff fact).mpr hedge) (hdone (p := p) hsq _ hends.1) (hdone (p := p) hsq _ hends.2)
  have hexcluded : s.excluded = t.excluded := by
    refine Std.ExtTreeSet.ext_mem fun id => ?_
    rw [hs.excluded_iff hsq, ht.excluded_iff htq]
    refine exists_congr fun fact => ?_
    rw [and_left_comm, and_left_comm (a := fact ∈ q.facts), leaving_iff h.left hs.gathered.vertices,
      leaving_iff h.right ht.gathered.vertices, h.facts.mem_iff, hdistances, h.outOfScope_eq, h.outOfScope_eq]
  rw [Neighborhood.Search.found, Neighborhood.Search.found]
  exact congr (congr (congr (congrArg Compiler.Neighborhood.mk hnodes) hfacts) hdistances)
    (congrArg Std.ExtTreeSet.size hexcluded)

theorem SameView.startSearch_eq (h : SameView p q request) (seeds : List EntityId) (s : Search) :
    startSearch p request seeds s = startSearch q request seeds s := by
  induction seeds generalizing s with
  | nil => rfl
  | cons seed rest ih =>
      rw [startSearch, startSearch, scopedNode, scopedNode, visibleNode_eq h.left, visibleNode_eq h.right, h.shown_eq]
      exact congrArg _ (funext fun node => ih _)

theorem SameView.neighborhood_eq (h : SameView p q request) : neighborhood p request = neighborhood q request := by
  by_cases hseeds : ∀ seed ∈ request.seeds, Vertex p request seed
  · obtain ⟨s, hfound, hs, hsq⟩ := neighborhood_found h.left hseeds
    obtain ⟨t, hfound', ht, htq⟩ :=
      neighborhood_found h.right fun seed hseed => (h.vertex_iff seed).mp (hseeds seed hseed)
    rw [hfound, hfound', h.found_eq hs ht hsq htq]
  · push Not at hseeds
    obtain ⟨seed, hseed, hno⟩ := hseeds
    have hmissing : ∃ seed ∈ sortedSeeds request, ¬ Vertex p request seed := ⟨seed, mem_sortedSeeds.mpr hseed, hno⟩
    obtain ⟨id, hstart⟩ := startSearch_missing (s := ⟨∅, ∅, ∅, [], ∅⟩) h.left hmissing
    rw [neighborhood, neighborhood, ← h.startSearch_eq, hstart]
    rfl

/-- A context depends on what is shown at the clock of its request, and on nothing else. -/
theorem SameView.compile_eq (h : SameView p q request) (hposition : p.lastGlobalPosition = q.lastGlobalPosition)
    {Graph : Type} (projectGraph : MemoryView → Result Graph) (estimator : TokenEstimator) :
    compile projectGraph estimator p request = compile projectGraph estimator q request := by
  rw [compile, compile, h.neighborhood_eq, hposition]

/-- What is compiled is a reading of the view, whichever way the projection came about and in whatever order
its indexes have what they hold. -/
theorem compile_reads_view {handed handed' : List MemoryFact} (hp : Obtained handed p) (hq : Obtained handed' q)
    (hnodes : (viewRef p (clockOf request)).nodes.Perm (viewRef q (clockOf request)).nodes)
    (hfacts : (viewRef p (clockOf request)).facts.Perm (viewRef q (clockOf request)).facts)
    (hposition : p.lastGlobalPosition = q.lastGlobalPosition) (crate : GraphCrate) (estimator : TokenEstimator) :
    compile (projectGraph crate) estimator p request = compile (projectGraph crate) estimator q request :=
  SameView.compile_eq ⟨hp.valid.1, hq.valid.1, hnodes, hfacts⟩ hposition (projectGraph crate) estimator

def elsewhere : StreamId := ⟨⟨"stream:elsewhere", by decide⟩, by decide⟩

/-- An event where the store keeps it: on its stream, and in the log. -/
def placed (stream : StreamId) (version position : UInt64) (event : NewEvent MemoryEvent) : StoredEvent MemoryEvent :=
  let kept := Common.stored position event
  { kept with metadata := { kept.metadata with streamId := stream, streamVersion := version } }

def taskWritten : NewEvent MemoryEvent :=
  Common.event (Common.eventId 0) (Common.ts 1) (.nodeUpserted (Common.node Common.task))

def fileWritten : NewEvent MemoryEvent :=
  Common.event (Common.eventId 1) (Common.ts 1) (.nodeUpserted (Common.node Common.file))

def factHeard : NewEvent MemoryEvent :=
  Common.event (Common.eventId 2) (Common.ts 20)
    (.factRecorded (Common.fact Common.factOne (Common.ts 10) (Common.ts 20) none))

/-- Two streams, of which the first is ahead. -/
def taskFirst : List (StoredEvent MemoryEvent) :=
  [placed Common.stream 0 0 taskWritten, placed elsewhere 0 1 fileWritten, placed Common.stream 1 2 factHeard]

/-- The same streams, of which the other is ahead. -/
def fileFirst : List (StoredEvent MemoryEvent) :=
  [placed elsewhere 0 0 fileWritten, placed Common.stream 0 1 taskWritten, placed Common.stream 1 2 factHeard]

theorem compile_reads_view_swapped :
    (applyAll ⟨1, 2⟩ taskFirst).nodes ≠ (applyAll ⟨3, 4⟩ fileFirst).nodes ∧
    compile (projectGraph lenientCrate) countingTexts (applyAll ⟨1, 2⟩ taskFirst) aroundTask =
      compile (projectGraph lenientCrate) countingTexts (applyAll ⟨3, 4⟩ fileFirst) aroundTask := by
  have hleft : Obtained (recordedIn taskFirst) (applyAll ⟨1, 2⟩ taskFirst) :=
    obtained_of_allAccepted (by decide +kernel) rfl
  have hright : Obtained (recordedIn fileFirst) (applyAll ⟨3, 4⟩ fileFirst) :=
    obtained_of_allAccepted (by decide +kernel) rfl
  exact ⟨by decide +kernel, compile_reads_view hleft hright (by decide +kernel) (by decide +kernel)
    (by decide +kernel) lenientCrate countingTexts⟩

end WeavatrixMemory.Context.Dependence
