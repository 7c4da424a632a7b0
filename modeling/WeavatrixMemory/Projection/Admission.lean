import WeavatrixMemory.Projection.Memory

namespace WeavatrixMemory.Projection.Admission

open Error Identity Domain Index State Memory

inductive Change
  | revise (index : Nat) (history : NodeHistory) (revision : NodeRevision)
  | add (revision : NodeRevision)
  | record (fact : MemoryFact) (source target : Nat)
  | retract (factId : FactId) (retraction : Retraction)

def supersede (supersessions : BTreeMap FactId Supersession) (fact : MemoryFact) :
    BTreeMap FactId Supersession :=
  match fact.supersedes with
  | some prior => supersessions.insert prior ⟨fact.id, fact.validFrom, fact.recordedAt⟩
  | none => supersessions

def Change.commit (p : MemoryProjection) : Change → MemoryProjection
  | .revise index history revision =>
      { p with nodes := p.nodes.set index { history with later := history.later ++ [revision] } }
  | .add revision =>
      { p with
        nodeLookup := (p.nodeLookup.insert revision.node.id p.nodes.length).2
        nodes := p.nodes ++ [NodeHistory.new revision]
        incidentOffsets := p.incidentOffsets ++ [p.incidentOffsets.getLastD 0] }
  | .record fact source target =>
      { p with
        supersessions := supersede p.supersessions fact
        factLookup := (p.factLookup.insert fact.id p.facts.length).2
        incidentDelta :=
          if target ≠ source then
            pushDelta (pushDelta p.incidentDelta source p.facts.length) target p.facts.length
          else pushDelta p.incidentDelta source p.facts.length
        facts := p.facts ++ [fact] }
  | .retract factId retraction => { p with retractions := p.retractions.insert factId retraction }

def Change.applied (p : MemoryProjection) (event : StoredEvent MemoryEvent) (change : Change) :
    MemoryProjection :=
  { change.commit p with lastGlobalPosition := some event.metadata.globalPosition }

def admitNode (p : MemoryProjection) (revision : NodeRevision) : Result Change := do
  revision.node.validate
  match p.nodeLookup.get revision.node.id with
  | some index => do
      let history ← getAt p.nodes index
      .ok (.revise index history revision)
  | none => .ok (.add revision)

def admitPrior (p : MemoryProjection) : Option FactId → Result Unit
  | none => .ok ()
  | some prior => do
      throwIf (!p.factLookup.containsKey prior) (.missingFact prior.toString)
      throwIf (p.supersessions.contains prior) (.conflictingFact prior.toString)

def admitFact (p : MemoryProjection) (fact : MemoryFact) : Result Change := do
  fact.validate
  let source ← requireEntity p fact.source
  let target ← requireEntity p fact.target
  throwIf (p.factLookup.containsKey fact.id) (.conflictingFact fact.id.toString)
  admitPrior p fact.supersedes
  .ok (.record fact source target)

def admitRetraction (p : MemoryProjection) (recordedAt : Timestamp) (factId : FactId)
    (validUntil : Timestamp) (evidence : List Evidence) : Result Change := do
  match ← fact p factId with
  | none => .error (.missingFact factId.toString)
  | some fact => do
      throwIf (validUntil ≤ fact.validFrom)
        (.invalidValue "retraction.valid_until" "must be later than the fact valid_from")
      throwIf (evidence = [])
        (.invalidValue "retraction.evidence" "at least one evidence item is required")
      validateEvidence evidence
      .ok (.retract factId ⟨validUntil, recordedAt⟩)

def admitPayload (p : MemoryProjection) (metadata : EventMetadata) : MemoryEvent → Result Change
  | .nodeUpserted node => admitNode p ⟨node, metadata.recordedAt, metadata.globalPosition⟩
  | .factRecorded fact => do
      throwIf (fact.recordedAt ≠ metadata.recordedAt ∨ fact.agentId ≠ metadata.agentId ∨
          fact.sessionId ≠ metadata.sessionId)
        (.invalidValue "fact.envelope" "fact provenance must match its event envelope")
      admitFact p fact
  | .factRetracted factId validUntil evidence =>
      admitRetraction p metadata.recordedAt factId validUntil evidence.items

/-- The checks of `apply`, all of which come before its first write. -/
def admitEvent (p : MemoryProjection) (event : StoredEvent MemoryEvent) : Result Change := do
  throwIf (event.metadata.eventType.str ≠ event.payload.eventType)
    (.invalidValue "event_type" "must match the memory event payload")
  admitPayload p event.metadata event.payload

theorem insertNode_eq (revision : NodeRevision) (p : MemoryProjection) :
    insertNode revision p = guarded (Change.commit p) p (admitNode p revision) := by
  unfold insertNode admitNode
  refine bind_guarded fun _ _ => ?_
  rw [bind_apply, get_apply]
  dsimp only
  cases p.nodeLookup.get revision.node.id with
  | none => rfl
  | some index => exact bind_guarded fun history _ => rfl

theorem insertFact_eq (fact : MemoryFact) (p : MemoryProjection) :
    insertFact fact p = guarded (Change.commit p) p (admitFact p fact) := by
  unfold insertFact admitFact
  refine bind_guarded fun _ _ => ?_
  rw [bind_apply, get_apply]
  refine bind_guarded fun source _ => ?_
  rw [bind_apply, get_apply]
  refine bind_guarded fun target _ => ?_
  rw [bind_apply, get_apply]
  refine bind_guarded fun _ _ => ?_
  unfold admitPrior
  cases hs : fact.supersedes with
  | none =>
      dsimp only
      simp only [ok_bind, guarded, Change.commit, supersede, hs]
      rfl
  | some prior =>
      simp only [applySupersession, bind_assoc]
      rw [bind_apply, get_apply]
      refine bind_guarded fun _ _ => bind_guarded fun _ _ => ?_
      simp only [guarded, Change.commit, supersede, hs]
      rfl

theorem applyRetraction_eq (recordedAt : Timestamp) (factId : FactId) (validUntil : Timestamp)
    (evidence : List Evidence) (p : MemoryProjection) :
    applyRetraction recordedAt factId validUntil evidence p =
      guarded (Change.commit p) p (admitRetraction p recordedAt factId validUntil evidence) := by
  unfold applyRetraction admitRetraction
  rw [bind_apply, get_apply]
  refine bind_guarded fun found _ => ?_
  cases found with
  | none => rfl
  | some fact =>
      exact bind_guarded fun _ _ => bind_guarded fun _ _ => bind_guarded fun _ _ => rfl

theorem stamp_guarded {p : MemoryProjection} {event : StoredEvent MemoryEvent}
    {x : Update MemoryProjection Unit} {checked : Result Change}
    (h : x p = guarded (Change.commit p) p checked) :
    (x >>= fun _ => modify fun p => { p with
        lastGlobalPosition := some event.metadata.globalPosition }) p =
      guarded (Change.applied p event) p checked := by
  rw [bind_apply, h]
  cases checked <;> rfl

/-- An event is applied completely or not at all. -/
theorem apply_eq (event : StoredEvent MemoryEvent) (p : MemoryProjection) :
    apply event p = guarded (Change.applied p event) p (admitEvent p event) := by
  unfold apply admitEvent
  refine bind_guarded fun _ _ => ?_
  cases event.payload with
  | nodeUpserted node => exact stamp_guarded (insertNode_eq _ p)
  | factRecorded fact =>
      simp only [admitPayload]
      exact bind_guarded fun _ _ => stamp_guarded (insertFact_eq fact p)
  | factRetracted factId validUntil evidence =>
      exact stamp_guarded (applyRetraction_eq _ factId validUntil evidence.items p)

theorem applyOwned_eq (event : StoredEvent MemoryEvent) (p : MemoryProjection) :
    applyOwned event p = guarded (Change.applied p event) p (admitEvent p event) := by
  rw [← apply_eq]
  rfl

structure FactAdmitted (p : MemoryProjection) (fact : MemoryFact) (source target : Nat) : Prop where
  valid : fact.validate = .ok ()
  source : p.nodeLookup.get fact.source = some source
  target : p.nodeLookup.get fact.target = some target
  fresh : p.factLookup.get fact.id = none
  prior : ∀ prior, fact.supersedes = some prior →
    p.factLookup.get prior ≠ none ∧ p.supersessions[prior]? = none

/-- The accepted events and what each of them does. -/
inductive Admitted (p : MemoryProjection) (metadata : EventMetadata) : MemoryEvent → Change → Prop
  | revise {node : MemoryNode} {index : Nat} {history : NodeHistory}
      (valid : node.validate = .ok ()) (known : p.nodeLookup.get node.id = some index)
      (stored : p.nodes[index]? = some history) :
      Admitted p metadata (.nodeUpserted node)
        (.revise index history ⟨node, metadata.recordedAt, metadata.globalPosition⟩)
  | add {node : MemoryNode} (valid : node.validate = .ok ())
      (unknown : p.nodeLookup.get node.id = none) :
      Admitted p metadata (.nodeUpserted node)
        (.add ⟨node, metadata.recordedAt, metadata.globalPosition⟩)
  | record {fact : MemoryFact} {source target : Nat} (recordedAt : fact.recordedAt = metadata.recordedAt)
      (agent : fact.agentId = metadata.agentId) (session : fact.sessionId = metadata.sessionId)
      (admitted : FactAdmitted p fact source target) :
      Admitted p metadata (.factRecorded fact) (.record fact source target)
  | retract {factId : FactId} {validUntil : Timestamp} {evidence : Vec Evidence} {index : Nat}
      {fact : MemoryFact} (known : p.factLookup.get factId = some index)
      (stored : p.facts[index]? = some fact) (later : fact.validFrom < validUntil)
      (nonempty : evidence.items ≠ []) (evidenced : validateEvidence evidence.items = .ok ()) :
      Admitted p metadata (.factRetracted factId validUntil evidence)
        (.retract factId ⟨validUntil, metadata.recordedAt⟩)

theorem admitNode_eq_ok {p : MemoryProjection} {metadata : EventMetadata} {node : MemoryNode}
    {change : Change} :
    admitNode p ⟨node, metadata.recordedAt, metadata.globalPosition⟩ = .ok change ↔
      Admitted p metadata (.nodeUpserted node) change := by
  unfold admitNode
  rw [bind_eq_ok]
  constructor
  · rintro ⟨_, hvalid, h⟩
    cases hk : p.nodeLookup.get node.id with
    | none =>
        simp only [hk, Except.ok.injEq] at h
        subst h
        exact .add hvalid hk
    | some index =>
        simp only [hk, bind_eq_ok, getAt_eq_ok, Except.ok.injEq] at h
        obtain ⟨history, hs, rfl⟩ := h
        exact .revise hvalid hk hs
  · rintro (⟨hvalid, hk, hs⟩ | ⟨hvalid, hk⟩)
    · refine ⟨(), hvalid, ?_⟩
      simp only [hk]
      exact bind_eq_ok.mpr ⟨_, getAt_eq_ok.mpr hs, rfl⟩
    · exact ⟨(), hvalid, by simp only [hk]⟩

theorem entityIndex_eq_ok {lookup : IdIndex EntityId} {id : EntityId} {index : Nat} :
    entityIndex lookup id = .ok index ↔ lookup.get id = some index := by
  unfold entityIndex
  cases lookup.get id <;> simp

theorem admitPrior_eq_ok {p : MemoryProjection} {supersedes : Option FactId} {u : Unit} :
    admitPrior p supersedes = .ok u ↔ ∀ prior, supersedes = some prior →
      p.factLookup.get prior ≠ none ∧ p.supersessions[prior]? = none := by
  cases supersedes with
  | none => simp [admitPrior]
  | some prior =>
      simp only [admitPrior, unit_bind_eq_ok, throwIf_eq_ok, Option.some.injEq, forall_eq']
      simp [IdIndex.containsKey]

theorem admitFact_eq_ok {p : MemoryProjection} {fact : MemoryFact} {change : Change} :
    admitFact p fact = .ok change ↔
      ∃ source target, FactAdmitted p fact source target ∧ change = .record fact source target := by
  simp only [admitFact, requireEntity, bind_eq_ok, entityIndex_eq_ok, throwIf_eq_ok, admitPrior_eq_ok,
    Except.ok.injEq]
  simp only [IdIndex.containsKey, Bool.not_eq_true, Option.isSome_eq_false_iff,
    Option.isNone_iff_eq_none]
  constructor
  · rintro ⟨_, hvalid, source, hs, target, ht, _, hfresh, _, hprior, rfl⟩
    exact ⟨source, target, ⟨hvalid, hs, ht, hfresh, hprior⟩, rfl⟩
  · rintro ⟨source, target, h, rfl⟩
    exact ⟨(), h.valid, source, h.source, target, h.target, (), h.fresh, (), h.prior, rfl⟩

theorem fact_eq_ok {p : MemoryProjection} {id : FactId} {f : MemoryFact} :
    fact p id = .ok (some f) ↔ ∃ index, p.factLookup.get id = some index ∧ p.facts[index]? = some f := by
  unfold fact
  cases p.factLookup.get id with
  | none => simp
  | some index => simp [bind_eq_ok, getAt_eq_ok]

theorem admitRetraction_eq_ok {p : MemoryProjection} {metadata : EventMetadata} {factId : FactId}
    {validUntil : Timestamp} {evidence : Vec Evidence} {change : Change} :
    admitRetraction p metadata.recordedAt factId validUntil evidence.items = .ok change ↔
      Admitted p metadata (.factRetracted factId validUntil evidence) change := by
  unfold admitRetraction
  rw [bind_eq_ok]
  constructor
  · rintro ⟨found, hf, h⟩
    cases found with
    | none => cases h
    | some fact =>
        obtain ⟨index, hk, hs⟩ := fact_eq_ok.mp hf
        simp only [unit_bind_eq_ok, throwIf_eq_ok, not_le, Except.ok.injEq] at h
        obtain ⟨hlater, hne, hev, rfl⟩ := h
        exact .retract hk hs hlater hne hev
  · intro h
    cases h with
    | retract hk hs hlater hne hev =>
        refine ⟨_, fact_eq_ok.mpr ⟨_, hk, hs⟩, ?_⟩
        simp only [unit_bind_eq_ok, throwIf_eq_ok, not_le]
        exact ⟨hlater, hne, hev, trivial⟩

theorem admitEvent_eq_ok {p : MemoryProjection} {event : StoredEvent MemoryEvent} {change : Change} :
    admitEvent p event = .ok change ↔ event.metadata.eventType.str = event.payload.eventType ∧
      Admitted p event.metadata event.payload change := by
  simp only [admitEvent, unit_bind_eq_ok, throwIf_eq_ok, not_not, ne_eq]
  refine and_congr_right fun _ => ?_
  cases event.payload with
  | nodeUpserted node => exact admitNode_eq_ok
  | factRetracted factId validUntil evidence => exact admitRetraction_eq_ok
  | factRecorded fact =>
      simp only [admitPayload, unit_bind_eq_ok, throwIf_eq_ok, admitFact_eq_ok, not_or, not_not, ne_eq]
      constructor
      · rintro ⟨⟨hr, ha, hs⟩, source, target, h, rfl⟩
        exact .record hr ha hs h
      · intro h
        cases h with
        | record hr ha hs h => exact ⟨⟨hr, ha, hs⟩, _, _, h, rfl⟩

theorem guarded_eq_ok {σ γ : Type} {commit : γ → σ} {s t : σ} {checked : Result γ} :
    guarded commit s checked = .ok () t ↔ ∃ c, checked = .ok c ∧ t = commit c := by
  cases checked with
  | ok c => simp [guarded, eq_comm]
  | error e => simp [guarded]

theorem apply_eq_ok {event : StoredEvent MemoryEvent} {p q : MemoryProjection} :
    apply event p = .ok () q ↔ ∃ change, event.metadata.eventType.str = event.payload.eventType ∧
      Admitted p event.metadata event.payload change ∧ q = change.applied p event := by
  rw [apply_eq, guarded_eq_ok]
  simp only [admitEvent_eq_ok, and_assoc]

theorem after_apply (event : StoredEvent MemoryEvent) (p : MemoryProjection) :
    after (apply event p) = p ∨ ∃ change, Admitted p event.metadata event.payload change ∧
      after (apply event p) = change.applied p event := by
  rw [apply_eq]
  cases h : admitEvent p event with
  | error e => exact .inl rfl
  | ok change => exact .inr ⟨change, (admitEvent_eq_ok.mp h).2, rfl⟩

end WeavatrixMemory.Projection.Admission
