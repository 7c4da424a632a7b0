import WeavatrixMemory.Projection.Parts
import WeavatrixMemory.Projection.Replacement
import WeavatrixMemory.Projection.Replay

namespace WeavatrixMemory.Projection.Bulk

open Error Identity Domain Index State Memory Admission Invariant History Replacement Replay Parts Outcome

/-- A log that introduces the nodes, all of them at one time, and then records the facts. -/
structure Introduces (nodes : List MemoryNode) (facts : List MemoryFact) (knownAt : Timestamp)
    (events : List (StoredEvent MemoryEvent)) : Prop where
  payloads : events.map (·.payload) = nodes.map .nodeUpserted ++ facts.map .factRecorded
  recorded : ∀ event ∈ events, ∀ node, event.payload = .nodeUpserted node → event.metadata.recordedAt = knownAt

structure Introduced (seeds : Seeds) (nodes : List MemoryNode) (facts : List MemoryFact) (knownAt : Timestamp)
    (p : MemoryProjection) : Prop where
  reached : Reached seeds p
  nodes_eq : p.nodes = numbered knownAt 0 nodes
  facts_eq : p.facts = facts
  retractions_eq : p.retractions = ∅

theorem introduced_default (seeds : Seeds) (knownAt : Timestamp) :
    Introduced seeds [] [] knownAt (.default seeds) :=
  ⟨.default, rfl, rfl, rfl⟩

theorem numbered_append (knownAt : Timestamp) (position : Nat) (nodes more : List MemoryNode) :
    numbered knownAt position (nodes ++ more) =
      numbered knownAt position nodes ++ numbered knownAt (position + nodes.length) more := by
  induction nodes generalizing position with
  | nil => rfl
  | cons node nodes ih =>
      rw [List.cons_append, numbered, ih, numbered, List.cons_append, List.length_cons]
      congr 3
      omega

theorem history_numbered (knownAt : Timestamp) (position : Nat) {nodes : List MemoryNode} {node : MemoryNode}
    (h : node ∈ nodes) : ∃ history ∈ numbered knownAt position nodes, history.first.node = node := by
  induction nodes generalizing position with
  | nil => exact absurd h List.not_mem_nil
  | cons other nodes ih =>
      rw [numbered]
      obtain rfl | h := List.mem_cons.mp h
      · exact ⟨_, List.mem_cons_self, rfl⟩
      · obtain ⟨history, hh, hnode⟩ := ih (position + 1) h
        exact ⟨history, List.mem_cons_of_mem _ hh, hnode⟩

variable {seeds : Seeds} {nodes : List MemoryNode} {facts : List MemoryFact} {knownAt : Timestamp}
  {p q : MemoryProjection}

theorem Reached.accepted (h : Reached seeds p) {event : StoredEvent MemoryEvent}
    (ha : apply event p = .ok () q ∨ applyOwned event p = .ok () q) : Reached seeds q := by
  obtain ha | ha := ha
  · have hq := h.apply event
    rwa [ha] at hq
  · have hq := h.applyOwned event
    rwa [ha] at hq

theorem Introduced.node (h : Introduced seeds nodes [] knownAt p) {event : StoredEvent MemoryEvent}
    {node : MemoryNode} (hp : event.payload = .nodeUpserted node) (hr : event.metadata.recordedAt = knownAt)
    (hpos : event.metadata.globalPosition.toNat = nodes.length) (hnew : node.id ∉ nodes.map MemoryNode.id)
    (ha : apply event p = .ok () q ∨ applyOwned event p = .ok () q) :
    Introduced seeds (nodes ++ [node]) [] knownAt q := by
  have hreached := Reached.accepted h.reached ha
  obtain ⟨change, hadmitted, rfl⟩ := accepted_eq ha
  rw [hp] at hadmitted
  cases hadmitted with
  | revise _ hk hs =>
      have hin := h.reached.valid.indexed.node_index.mp hk
      obtain ⟨history, hat, hid⟩ := hin
      have hmem := List.mem_map_of_mem (f := NodeHistory.id) (List.mem_of_getElem? hat)
      rw [hid, h.nodes_eq, ids_numbered] at hmem
      exact absurd hmem hnew
  | add =>
      refine ⟨hreached, ?_, h.facts_eq, h.retractions_eq⟩
      change p.nodes ++ [NodeHistory.new ⟨node, event.metadata.recordedAt, event.metadata.globalPosition⟩] = _
      rw [numbered_append, h.nodes_eq, hr, Nat.zero_add, ← hpos, numbered, numbered, UInt64.ofNat_toNat]

theorem Introduced.fact {fact : MemoryFact} (h : Introduced seeds nodes facts knownAt p)
    {event : StoredEvent MemoryEvent} (hp : event.payload = .factRecorded fact)
    (ha : apply event p = .ok () q ∨ applyOwned event p = .ok () q) :
    Introduced seeds nodes (facts ++ [fact]) knownAt q := by
  have hreached := Reached.accepted h.reached ha
  obtain ⟨change, hadmitted, rfl⟩ := accepted_eq ha
  rw [hp] at hadmitted
  cases hadmitted with
  | record =>
      refine ⟨hreached, h.nodes_eq, ?_, h.retractions_eq⟩
      rw [← h.facts_eq]
      rfl

variable {step : StoredEvent MemoryEvent → Update MemoryProjection Unit} {requireZeroStart : Bool}
  {events : List (StoredEvent MemoryEvent)} {eventIds : List EventId} {cursor cursor' : ReplayCursor}

theorem Introduced.nodes_run
    (hstep : ∀ event p q, step event p = .ok () q → apply event p = .ok () q ∨ applyOwned event p = .ok () q)
    {more : List MemoryNode} (hp : events.map (·.payload) = more.map .nodeUpserted)
    (hr : ∀ event ∈ events, event.metadata.recordedAt = knownAt)
    (hnodup : ((nodes ++ more).map MemoryNode.id).Nodup) (h : Introduced seeds nodes [] knownAt p)
    (hcursor : nextOf cursor.globalPosition = nodes.length)
    (hrun : applyLoop step requireZeroStart events eventIds p cursor = .ok (q, cursor')) :
    Introduced seeds (nodes ++ more) [] knownAt q := by
  induction more generalizing nodes events eventIds p cursor with
  | nil =>
      rw [List.map_nil, List.map_eq_nil_iff] at hp
      subst hp
      cases hrun
      rwa [List.append_nil]
  | cons node more ih =>
      obtain ⟨event, rest, rfl, hpayload, hp⟩ := List.map_eq_cons_iff.mp hp
      obtain ⟨hfollows, middle, hm, hrun⟩ := applyLoop_cons_eq_ok.mp hrun
      obtain ⟨hrecorded, hr⟩ := List.forall_mem_cons.mp hr
      have hpos := (following_eq_ok.mp hfollows.position).trans hcursor
      rw [List.append_cons] at hnodup ⊢
      have hnew : node.id ∉ nodes.map MemoryNode.id := by
        rw [List.map_append, List.map_append, List.nodup_append, List.nodup_append] at hnodup
        intro hin
        exact hnodup.1.2.2 _ hin _ List.mem_cons_self rfl
      refine ih hp hr hnodup (h.node hpayload hrecorded hpos hnew (hstep _ _ _ hm)) ?_ hrun
      change event.metadata.globalPosition.toNat + 1 = (nodes ++ [node]).length
      rw [hpos, List.length_append, List.length_singleton]

theorem Introduced.facts_run
    (hstep : ∀ event p q, step event p = .ok () q → apply event p = .ok () q ∨ applyOwned event p = .ok () q)
    {more : List MemoryFact} (hp : events.map (·.payload) = more.map .factRecorded)
    (h : Introduced seeds nodes facts knownAt p)
    (hrun : applyLoop step requireZeroStart events eventIds p cursor = .ok (q, cursor')) :
    Introduced seeds nodes (facts ++ more) knownAt q := by
  induction more generalizing facts events eventIds p cursor with
  | nil =>
      rw [List.map_nil, List.map_eq_nil_iff] at hp
      subst hp
      cases hrun
      rwa [List.append_nil]
  | cons fact more ih =>
      obtain ⟨event, rest, rfl, hpayload, hp⟩ := List.map_eq_cons_iff.mp hp
      obtain ⟨-, middle, hm, hrun⟩ := applyLoop_cons_eq_ok.mp hrun
      rw [List.append_cons]
      exact ih hp (h.fact hpayload (hstep _ _ _ hm)) hrun

theorem Introduced.constructible (h : Introduced seeds nodes facts knownAt p)
    (hrecorded : ∀ fact ∈ facts, fact.recordedAt ≤ knownAt) : Constructible nodes facts knownAt := by
  have hvalid := h.reached.valid
  have hreplacing := Reached.replacing h.reached
  have hnodes : p.data.nodes.map NodeHistory.id = nodes.map MemoryNode.id := by
    rw [← ids_numbered knownAt 0, ← h.nodes_eq]
    rfl
  obtain rfl := h.facts_eq
  refine ⟨fun node hn => ?_, hnodes ▸ hvalid.sound.nodeIds, hrecorded, hvalid.sound.valid, fun fact hf => ?_,
    hvalid.sound.factIds, fun fact hf prior hs => ?_, ?_⟩
  · obtain ⟨history, hh, rfl⟩ := history_numbered knownAt 0 hn
    rw [← h.nodes_eq] at hh
    exact (checkRevisions_eq_ok.mp (hvalid.sound.revisions history hh) history.first List.mem_cons_self).1
  · rw [← hnodes]
    exact hvalid.sound.endpoints fact hf
  · obtain ⟨i, hi⟩ := List.mem_iff_getElem?.mp hf
    obtain ⟨j, -, replaced, hj, rfl⟩ := hreplacing.earlier i fact prior hi hs
    exact List.mem_map_of_mem (List.mem_of_getElem? hj)
  · have hids : p.facts.Pairwise fun f g => f.id ≠ g.id := List.pairwise_map.mp hvalid.sound.factIds
    apply hids.imp_of_mem
    intro f g hf hg hne prior hfp hgp
    exact hne (hreplacing.records.id_unique hf hg hfp hgp)

theorem introduced_of_replay (hlog : Introduces nodes facts knownAt events)
    (hnodup : (nodes.map MemoryNode.id).Nodup)
    (h : replay (memory seeds) events = .ok q ∨ replayOwned (memory seeds) events = .ok q) :
    Introduced seeds nodes facts knownAt q := by
  obtain ⟨step, cursor, hstep, hrun⟩ : ∃ (step : StoredEvent MemoryEvent → Update MemoryProjection Unit) (cursor : _),
      (∀ event p q, step event p = .ok () q → apply event p = .ok () q ∨ applyOwned event p = .ok () q) ∧
        applyLoop step true events [] (.default seeds) .default = .ok (q, cursor) := by
    obtain h | h := h
    · obtain ⟨⟨q, cursor⟩, hrun, rfl⟩ := map_eq_ok.mp h
      exact ⟨apply, cursor, fun _ _ _ => .inl, hrun⟩
    · obtain ⟨⟨q, cursor⟩, hrun, rfl⟩ := map_eq_ok.mp h
      exact ⟨applyOwned, cursor, fun _ _ _ => .inr, hrun⟩
  obtain ⟨first, second, rfl, hfirst, hsecond⟩ := List.map_eq_append_iff.mp hlog.payloads
  obtain ⟨p, middle, hbefore, hafter⟩ := applyLoop_append.mp hrun
  have hrecorded : ∀ event ∈ first, event.metadata.recordedAt = knownAt := by
    intro event he
    have hpayload := List.mem_map_of_mem (f := fun event : StoredEvent MemoryEvent => event.payload) he
    rw [hfirst] at hpayload
    obtain ⟨node, -, hnode⟩ := List.mem_map.mp hpayload
    exact hlog.recorded event (List.mem_append_left _ he) node hnode.symm
  have hnodes : Introduced seeds ([] ++ nodes) [] knownAt p :=
    (introduced_default seeds knownAt).nodes_run hstep hfirst hrecorded hnodup rfl hbefore
  exact hnodes.facts_run hstep hsecond hafter

/-- Construction from parts comes to the same as the replay of a log that introduces them, whatever
the number of workers. -/
theorem tryFromParts_replay (seeds : Seeds) (parallelism : Nat) (nodes : Vec MemoryNode) (facts : Vec MemoryFact)
    (knownAt : Timestamp) (sourcePosition : Option UInt64) :
    (∀ (replayed : Seeds) (events : List (StoredEvent MemoryEvent)) (q : MemoryProjection),
      Introduces nodes.items facts.items knownAt events →
      replay (memory replayed) events = .ok q ∨ replayOwned (memory replayed) events = .ok q →
      (nodes.items.map MemoryNode.id).Nodup → (∀ fact ∈ facts.items, fact.recordedAt ≤ knownAt) →
      ∃ p, tryFromParts seeds parallelism nodes.items facts.items knownAt sourcePosition = .ok p ∧
        p.facts = q.facts ∧ p.supersessions = q.supersessions ∧
        (∀ id, incidentFactIds p id = incidentFactIds q id) ∧ ∀ clock, view p clock = view q clock) ∧
    ∀ workers, tryFromParts seeds workers nodes.items facts.items knownAt sourcePosition =
      tryFromParts seeds parallelism nodes.items facts.items knownAt sourcePosition := by
  refine ⟨fun replayed events q hlog hreplay hnodup hrecorded => ?_, fun workers => ?_⟩
  · have hq := introduced_of_replay hlog hnodup hreplay
    have hconstructible := hq.constructible hrecorded
    have hnodes := nodes.fits
    have hfacts := facts.fits
    have hholds := (tryFromParts_holds seeds parallelism nodes.items facts.items knownAt sourcePosition).mono
      (fun _ h => h) fun e he => he.2 ⟨by omega, by omega, hconstructible⟩
    obtain ⟨p, hp, hbuilt⟩ := hholds.exists_ok
    have hsame : p.facts = q.facts := hbuilt.facts_eq.trans hq.facts_eq.symm
    have hsupersessions : p.supersessions = q.supersessions := by
      apply hbuilt.records.ext (Reached.replacing hq.reached).records
      intro fact
      rw [hq.facts_eq]
    have hnodeHistories : p.nodes = q.nodes := hbuilt.nodes_eq.trans hq.nodes_eq.symm
    have hretractions : p.retractions = q.retractions := hbuilt.retractions_eq.trans hq.retractions_eq.symm
    refine ⟨p, hp, hsame, hsupersessions, fun id => ?_, fun clock => ?_⟩
    · rw [hbuilt.valid.incidentFactIds_eq, hq.reached.valid.incidentFactIds_eq, hsame]
    · simp only [view, viewRef, factIsActive, hnodeHistories, hsame, hsupersessions, hretractions]
  · rw [tryFromParts, tryFromParts]
    simp only [prepareFacts_eq]

def introduction : List (StoredEvent MemoryEvent) :=
  [Common.stored 0 (Common.event (Common.eventId 0) (Common.ts 30) (.nodeUpserted (Common.node Common.task))),
    Common.stored 1 (Common.event (Common.eventId 1) (Common.ts 30) (.nodeUpserted (Common.node Common.file))),
    Common.stored 2 (Common.event (Common.eventId 2) (Common.ts 20)
      (.factRecorded (Common.fact Common.factOne (Common.ts 10) (Common.ts 20) none)))]

theorem introduces_introduction : Introduces [Common.node Common.task, Common.node Common.file]
    [Common.fact Common.factOne (Common.ts 10) (Common.ts 20) none] (Common.ts 30) introduction where
  payloads := rfl
  recorded := List.forall_mem_cons.mpr ⟨fun _ _ => rfl,
    List.forall_mem_cons.mpr ⟨fun _ _ => rfl, List.forall_mem_singleton.mpr nofun⟩⟩

theorem tryFromParts_replay_introduction :
    ∃ p q, tryFromParts ⟨3, 4⟩ 8 [Common.node Common.task, Common.node Common.file]
        [Common.fact Common.factOne (Common.ts 10) (Common.ts 20) none] (Common.ts 30) none = .ok p ∧
      replay (memory ⟨1, 2⟩) introduction = .ok q ∧ ∀ clock, view p clock = view q clock := by
  obtain ⟨q, hq⟩ : ∃ q, replay (memory ⟨1, 2⟩) introduction = .ok q := exists_ok_of_isOk (by decide +kernel)
  obtain ⟨p, hp, -, -, -, hview⟩ := (tryFromParts_replay ⟨3, 4⟩ 8
    ⟨[Common.node Common.task, Common.node Common.file], by decide⟩
    ⟨[Common.fact Common.factOne (Common.ts 10) (Common.ts 20) none], by decide⟩ (Common.ts 30) none).1
      ⟨1, 2⟩ introduction
    q introduces_introduction (.inl hq) (by decide) (by decide)
  exact ⟨p, q, hp, hq, hview⟩

end WeavatrixMemory.Projection.Bulk
