import WeavatrixMemory.Projection.Invariant

namespace WeavatrixMemory.Projection.Batches

open Error Identity Domain Index State Memory Admission Invariant

/-- Events that are applied one after the other, up to the first that is rejected. -/
def applyEach (events : List (StoredEvent MemoryEvent)) (p : MemoryProjection) : Result MemoryProjection :=
  events.foldlM (fun p event => runOn (apply event) p) p

structure Upserting (node : MemoryNode) (event : StoredEvent MemoryEvent) : Prop where
  payload : event.payload = .nodeUpserted node
  eventType : event.metadata.eventType.str = event.payload.eventType
  valid : node.validate = .ok ()

structure Recording (fact : MemoryFact) (event : StoredEvent MemoryEvent) : Prop where
  payload : event.payload = .factRecorded fact
  eventType : event.metadata.eventType.str = event.payload.eventType
  recordedAt : fact.recordedAt = event.metadata.recordedAt
  agent : fact.agentId = event.metadata.agentId
  session : fact.sessionId = event.metadata.sessionId
  valid : fact.validate = .ok ()
  supersedes : fact.supersedes = none

variable {p q : MemoryProjection} {node : MemoryNode} {fact : MemoryFact} {event : StoredEvent MemoryEvent}

theorem applyEach_cons {rest : List (StoredEvent MemoryEvent)} (h : apply event p = .ok () q) :
    applyEach (event :: rest) p = applyEach rest q := by
  rw [applyEach, List.foldlM_cons, runOn_eq_ok.mpr h]
  rfl

theorem applyEach_append {first second : List (StoredEvent MemoryEvent)} (h : applyEach first p = .ok q) :
    applyEach (first ++ second) p = applyEach second q := by
  rw [applyEach] at h
  rw [applyEach, List.foldlM_append, h]
  rfl

theorem Upserting.accepted (hp : Valid p) (h : Upserting node event) : ∃ q, apply event p = .ok () q ∧ Valid q ∧
    q.facts = p.facts ∧ ∀ id, id ∈ q.nodes.map NodeHistory.id ↔ id ∈ p.nodes.map NodeHistory.id ∨ id = node.id := by
  obtain ⟨change, hadmitted, hfacts, hids⟩ : ∃ change, Admitted p event.metadata event.payload change ∧
      (change.applied p event).facts = p.facts ∧ ∀ id, id ∈ (change.applied p event).nodes.map NodeHistory.id ↔
        id ∈ p.nodes.map NodeHistory.id ∨ id = node.id := by
    rw [h.payload]
    cases hknown : p.nodeLookup.get node.id with
    | some index =>
        obtain ⟨history, hs, hid⟩ := hp.indexed.node_index.mp hknown
        refine ⟨_, .revise h.valid hknown hs, rfl, fun id => ?_⟩
        refine (iff_of_eq (congrArg (id ∈ ·) (nodeIds_revise hs _))).trans (or_iff_left_of_imp ?_).symm
        rintro rfl
        rw [← hid]
        exact List.mem_map_of_mem (List.mem_of_getElem? hs)
    | none =>
        refine ⟨_, .add h.valid hknown, rfl, fun id => ?_⟩
        refine (iff_of_eq (congrArg (id ∈ ·) List.map_append)).trans ?_
        rw [List.mem_append, List.map_singleton, List.mem_singleton]
        rfl
  exact ⟨_, apply_eq_ok.mpr ⟨change, h.eventType, hadmitted, rfl⟩, hp.applied hadmitted, hfacts, hids⟩

theorem Recording.accepted (hp : Valid p) (h : Recording fact event)
    (hsource : fact.source ∈ p.nodes.map NodeHistory.id)
    (htarget : fact.target ∈ p.nodes.map NodeHistory.id) (hnew : fact.id ∉ p.facts.map MemoryFact.id) :
    ∃ q, apply event p = .ok () q ∧ Valid q ∧ q.facts = p.facts ++ [fact] ∧ q.nodes = p.nodes := by
  have hindex {id : EntityId} (hid : id ∈ p.nodes.map NodeHistory.id) : ∃ i, p.nodeLookup.get id = some i := by
    obtain ⟨history, hh, hid⟩ := List.mem_map.mp hid
    obtain ⟨i, hi⟩ := List.mem_iff_getElem?.mp hh
    exact ⟨i, hp.indexed.node_index.mpr ⟨history, hi, hid⟩⟩
  obtain ⟨source, hs⟩ := hindex hsource
  obtain ⟨target, ht⟩ := hindex htarget
  have hadmitted : Admitted p event.metadata event.payload (.record fact source target) := by
    rw [h.payload]
    refine .record h.recordedAt h.agent h.session ⟨h.valid, hs, ht, hp.indexed.factLookup.get_eq_none.mpr hnew, ?_⟩
    intro prior hprior
    rw [h.supersedes] at hprior
    cases hprior
  exact ⟨_, apply_eq_ok.mpr ⟨_, h.eventType, hadmitted, rfl⟩, hp.applied hadmitted, rfl, rfl⟩

theorem applyEach_nodes {nodes : List MemoryNode} {events : List (StoredEvent MemoryEvent)}
    (h : List.Forall₂ Upserting nodes events) (hp : Valid p) : ∃ q, applyEach events p = .ok q ∧ Valid q ∧
      q.facts = p.facts ∧ ∀ id, id ∈ q.nodes.map NodeHistory.id ↔
        id ∈ p.nodes.map NodeHistory.id ∨ id ∈ nodes.map MemoryNode.id := by
  induction h generalizing p with
  | nil => exact ⟨p, rfl, hp, rfl, fun id => (or_iff_left List.not_mem_nil).symm⟩
  | cons hfirst _ ih =>
      obtain ⟨next, hnext, hvalid, hfacts, hids⟩ := hfirst.accepted hp
      obtain ⟨q, hq, hlast, hsame, hall⟩ := ih hvalid
      refine ⟨q, (applyEach_cons hnext).trans hq, hlast, hsame.trans hfacts, fun id => ?_⟩
      rw [hall, hids, List.map_cons, List.mem_cons, or_assoc]

theorem applyEach_facts {facts : List MemoryFact} {events : List (StoredEvent MemoryEvent)}
    (h : List.Forall₂ Recording facts events) (hp : Valid p)
    (hends : ∀ fact ∈ facts, fact.source ∈ p.nodes.map NodeHistory.id ∧ fact.target ∈ p.nodes.map NodeHistory.id)
    (hnew : ∀ fact ∈ facts, fact.id ∉ p.facts.map MemoryFact.id) (hnodup : (facts.map MemoryFact.id).Nodup) :
    ∃ q, applyEach events p = .ok q ∧ Valid q ∧ q.facts = p.facts ++ facts := by
  induction h generalizing p with
  | nil => exact ⟨p, rfl, hp, (List.append_nil _).symm⟩
  | cons hfirst _ ih =>
      obtain ⟨hfirstends, hends⟩ := List.forall_mem_cons.mp hends
      obtain ⟨hfirstnew, hnew⟩ := List.forall_mem_cons.mp hnew
      obtain ⟨hother, hnodup⟩ := List.nodup_cons.mp hnodup
      obtain ⟨next, hnext, hvalid, hfacts, hnodes⟩ := hfirst.accepted hp hfirstends.1 hfirstends.2 hfirstnew
      rw [← hnodes] at hends
      obtain ⟨q, hq, hlast, hall⟩ := ih hvalid hends (fun fact hf => by
        rw [hfacts, List.map_append, List.mem_append, not_or, List.map_singleton, List.mem_singleton]
        exact ⟨hnew fact hf, fun heq => hother (heq ▸ List.mem_map_of_mem hf)⟩) hnodup
      refine ⟨q, (applyEach_cons hnext).trans hq, hlast, ?_⟩
      rw [hall, hfacts, List.append_assoc, List.singleton_append]

end WeavatrixMemory.Projection.Batches
