import WeavatrixMemory.Snapshot.Routes

namespace WeavatrixMemory.Snapshot.Updates

open Error Identity Domain Routes
open Projection.Index Projection.State Projection.Memory Projection.Admission Projection.Invariant Projection.History

/-- What an accepted event turns a projection into. The frames say which fields may change at all. -/
inductive Updated (p q : MemoryProjection) (metadata : EventMetadata) : MemoryEvent → Prop
  | revised {node : MemoryNode} {before after : List NodeHistory} {history : NodeHistory}
      (frame : q = { p with nodes := q.nodes, lastGlobalPosition := some metadata.globalPosition })
      (held : p.nodes = before ++ history :: after) (named : history.id = node.id)
      (nodes : q.nodes = before ++ { history with
        later := history.later ++ [⟨node, metadata.recordedAt, metadata.globalPosition⟩] } :: after) :
      Updated p q metadata (.nodeUpserted node)
  | introduced {node : MemoryNode} {last : Nat}
      (frame : q = { p with
        nodes := q.nodes
        nodeLookup := q.nodeLookup
        incidentOffsets := q.incidentOffsets
        lastGlobalPosition := some metadata.globalPosition })
      (fresh : node.id ∉ p.nodes.map NodeHistory.id)
      (nodes : q.nodes = p.nodes ++ [.new ⟨node, metadata.recordedAt, metadata.globalPosition⟩])
      (lookup : ∀ id, q.nodeLookup.get id = if id = node.id then some p.nodes.length else p.nodeLookup.get id)
      (offsets : q.incidentOffsets = p.incidentOffsets ++ [last]) (ends : p.incidentOffsets.getLast? = some last) :
      Updated p q metadata (.nodeUpserted node)
  | recorded {fact : MemoryFact}
      (frame : q = { p with
        facts := q.facts
        factLookup := q.factLookup
        incidentDelta := q.incidentDelta
        supersessions := q.supersessions
        lastGlobalPosition := some metadata.globalPosition })
      (fresh : fact.id ∉ p.facts.map MemoryFact.id) (facts : q.facts = p.facts ++ [fact])
      (lookup : ∀ id, q.factLookup.get id = if id = fact.id then some p.facts.length else p.factLookup.get id)
      (delta : ∀ i, (∀ history, p.nodes[i]? = some history → ¬ Touches history.id fact) →
        q.incidentDelta i = p.incidentDelta i)
      (supersessions : ∀ id, q.supersessions[id]? =
        if fact.supersedes = some id then some ⟨fact.id, fact.validFrom, fact.recordedAt⟩ else p.supersessions[id]?) :
      Updated p q metadata (.factRecorded fact)
  | retracted {factId : FactId} {validUntil : Timestamp} {evidence : Vec Evidence}
      (frame : q = { p with
        retractions := q.retractions
        lastGlobalPosition := some metadata.globalPosition })
      (retractions : ∀ id, q.retractions[id]? =
        if id = factId then some ⟨validUntil, metadata.recordedAt⟩ else p.retractions[id]?) :
      Updated p q metadata (.factRetracted factId validUntil evidence)

def gained (id : EntityId) : MemoryEvent → List FactId
  | .factRecorded fact => if Touches id fact then [fact.id] else []
  | _ => []

variable {p : MemoryProjection} {event : StoredEvent MemoryEvent} {change : Change}

theorem getElem?_supersede {supersessions : BTreeMap FactId Supersession} {fact : MemoryFact} (id : FactId) :
    (supersede supersessions fact)[id]? =
      if fact.supersedes = some id then some ⟨fact.id, fact.validFrom, fact.recordedAt⟩ else supersessions[id]? := by
  rw [supersede]
  cases hs : fact.supersedes with
  | none => rw [if_neg (by simp)]
  | some prior =>
      dsimp only
      rw [getElem?_insert]
      by_cases h : id = prior
      · rw [if_pos h, if_pos (congrArg some h.symm)]
      · rw [if_neg h, if_neg fun he => h (Option.some.inj he).symm]

theorem delta_of_not_touched (h : Indexed p) {fact : MemoryFact} {source target : Nat}
    (ha : FactAdmitted p fact source target) {i : Nat}
    (hi : ∀ history, p.nodes[i]? = some history → ¬ Touches history.id fact) :
    (Change.commit p (.record fact source target)).incidentDelta i = p.incidentDelta i := by
  have hsource : i ≠ source := by
    rintro rfl
    obtain ⟨history, hs, hid⟩ := h.node_index.mp ha.source
    exact hi history hs (.inl hid.symm)
  have htarget : i ≠ target := by
    rintro rfl
    obtain ⟨history, hs, hid⟩ := h.node_index.mp ha.target
    exact hi history hs (.inr hid.symm)
  rw [Change.commit]
  dsimp only
  split
  · rw [pushDelta_ne _ _ htarget, pushDelta_ne _ _ hsource]
  · rw [pushDelta_ne _ _ hsource]

theorem updated_of_admitted (hp : Valid p) (ha : Admitted p event.metadata event.payload change) :
    Updated p (change.applied p event) event.metadata event.payload := by
  obtain ⟨metadata, payload⟩ := event
  cases ha with
  | @revise node index history valid known stored =>
      obtain ⟨other, ho, hid⟩ := hp.indexed.node_index.mp known
      obtain rfl := Option.some.inj (stored.symm.trans ho)
      obtain ⟨hheld, hset⟩ := split_set stored { history with
        later := history.later ++ [⟨node, metadata.recordedAt, metadata.globalPosition⟩] }
      exact .revised rfl hheld hid hset
  | add valid unknown =>
      refine .introduced rfl (hp.indexed.nodeLookup.get_eq_none.mp unknown) rfl (fun id => get_insert _ _ id _) rfl ?_
      rw [List.getLastD_eq_getLast?, hp.indexed.offsets_last]
      rfl
  | record recordedAt agent session admitted =>
      exact .recorded rfl (hp.indexed.factLookup.get_eq_none.mp admitted.fresh) rfl (fun id => get_insert _ _ id _)
        (fun i hi => delta_of_not_touched hp.indexed admitted hi) getElem?_supersede
  | retract => exact .retracted rfl fun id => getElem?_insert _ _ id _

theorem incidents_applied (hp : Valid p) (ha : Admitted p event.metadata event.payload change) (id : EntityId) :
    ∃ facts, incidentFactIds p id = .ok facts ∧
      incidentFactIds (change.applied p event) id = .ok (facts ++ gained id event.payload) := by
  refine ⟨_, hp.incidentFactIds_eq id, ?_⟩
  rw [(hp.applied ha).incidentFactIds_eq id, facts_applied ha, List.filter_append, List.map_append]
  congr 2
  cases event.payload with
  | nodeUpserted node => rfl
  | factRetracted factId validUntil evidence => rfl
  | factRecorded fact =>
      rw [Routes.recorded, gained]
      by_cases h : Touches id fact
      · simp [h]
      · simp [h]

/-- A rejected event leaves the projection as it was. An accepted one changes what it names, and the
position. -/
theorem events_atomic (handed : List MemoryFact) (p : MemoryProjection) (hp : Obtained handed p)
    (event : StoredEvent MemoryEvent) :
    (∀ e q, (apply event p = .error e q ∨ applyOwned event p = .error e q) → q = p) ∧
    ∀ q, (apply event p = .ok () q ∨ applyOwned event p = .ok () q) →
      Updated p q event.metadata event.payload ∧
      q.lastGlobalPosition = some event.metadata.globalPosition ∧
      ∀ id, ∃ facts, incidentFactIds p id = .ok facts ∧
        incidentFactIds q id = .ok (facts ++ gained id event.payload) := by
  have hvalid := hp.valid.1
  refine ⟨fun e q => apply_eq_error, fun q h => ?_⟩
  obtain ⟨change, ha, rfl⟩ := accepted_eq h
  exact ⟨updated_of_admitted hvalid ha, rfl, incidents_applied hvalid ha⟩

/-- A fact has been retracted, and then superseded by another. -/
def correctedLog : List (StoredEvent MemoryEvent) :=
  Common.retractedOnce ++ [Common.stored 4 (Common.event (Common.eventId 4) (Common.ts 60)
    (.factRecorded (Common.fact Common.factTwo (Common.ts 30) (Common.ts 60) (some Common.factOne))))]

def corrected : MemoryProjection := applyAll ⟨1, 2⟩ correctedLog

theorem obtained_corrected : Obtained (recordedIn correctedLog) corrected :=
  obtained_of_allAccepted (by decide +kernel) rfl

def relabelled : MemoryNode := { Common.node Common.task with label := Common.taskKind }

def relabelling : StoredEvent MemoryEvent :=
  Common.stored 5 (Common.event (Common.eventId 4) (Common.ts 70) (.nodeUpserted relabelled))

def factLate : FactId := ⟨⟨"fact:late", by decide⟩, by decide⟩

/-- Another fact instead of the superseded one: what is checked last refuses it. -/
def superseding : StoredEvent MemoryEvent :=
  Common.stored 5 (Common.event (Common.eventId 4) (Common.ts 70)
    (.factRecorded (Common.fact factLate (Common.ts 30) (Common.ts 70) (some Common.factOne))))

theorem events_atomic_corrected :
    corrected.nodes.length = 2 ∧ corrected.facts.length = 2 ∧ corrected.retractions.size = 1 ∧
    corrected.supersessions.size = 1 ∧ (∃ q, apply relabelling corrected = .ok () q ∧
      Updated corrected q relabelling.metadata relabelling.payload) ∧
    apply superseding corrected = .error (.conflictingFact "fact:1") corrected := by
  have hatomic := events_atomic _ corrected obtained_corrected
  refine ⟨by decide +kernel, by decide +kernel, by decide +kernel, by decide +kernel, ?_, ?_⟩
  · have happly : apply relabelling corrected = .ok () _ := eq_ok_of_accepted (by decide +kernel)
    exact ⟨_, happly, ((hatomic relabelling).2 _ (.inl happly)).1⟩
  · have hrefused : (admitEvent corrected superseding).map (fun _ => ()) = .error (.conflictingFact "fact:1") := by
      decide +kernel
    cases hadmitted : admitEvent corrected superseding with
    | ok change =>
        rw [hadmitted] at hrefused
        cases hrefused
    | error e =>
        rw [hadmitted] at hrefused
        cases hrefused
        have happly : ∃ q, apply superseding corrected = .error (.conflictingFact "fact:1") q := by
          rw [apply_eq, hadmitted]
          exact ⟨_, rfl⟩
        obtain ⟨q, happly⟩ := happly
        rw [happly, (hatomic superseding).1 _ q (.inl happly)]

end WeavatrixMemory.Snapshot.Updates
