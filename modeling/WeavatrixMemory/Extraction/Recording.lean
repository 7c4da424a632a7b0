import WeavatrixMemory.Extraction.Validity

namespace WeavatrixMemory.Extraction.Recording

open Error Identity Domain Key Model Linker Engine Catalog Candidates Linking Merging Created Validity

variable {unicode : Unicode} {policy : LinkPolicy} {provider : Text} {input : ExtractionInput} {linker : EntityLinker}
  {nodes : List MemoryNode} {fingerprint : String} {mention : ExtractedEntity} {d : LinkDecision}

/-- A mention is left without an entity if it is ambiguous or unresolved, and only then. Any entity it is linked to
is in the catalog or new. -/
structure Decided (nodes : List MemoryNode) (d : LinkDecision) : Prop where
  undecided : d.entityId = none ↔ d.method = .ambiguous ∨ d.method = .unresolved
  known : ∀ id, d.entityId = some id → d.method = .created ∨ id ∈ nodes.map (·.id)

theorem decided_of_some {id : EntityId} (hid : d.entityId = some id) (hambiguous : d.method ≠ .ambiguous)
    (hunresolved : d.method ≠ .unresolved)
    (hknown : d.method = .created ∨ id ∈ nodes.map (·.id)) : Decided nodes d where
  undecided := by
    rw [hid]
    exact iff_of_false (Option.some_ne_none id) (not_or_intro hambiguous hunresolved)
  known other ho := by
    obtain rfl := Option.some.inj (hid.symm.trans ho)
    exact hknown

theorem decided_of_none (hid : d.entityId = none) (hmethod : d.method = .ambiguous ∨ d.method = .unresolved) :
    Decided nodes d where
  undecided := iff_of_true hid hmethod
  known other ho := by
    rw [hid] at ho
    cases ho

theorem link_decided (hc : Catalogued unicode nodes linker) (h : link unicode linker mention input policy = .ok d) :
    Decided nodes d := by
  cases link_linked hc h with
  | known hstable hn =>
      exact decided_of_some rfl (by simp [decision]) (by simp [decision]) (.inr (List.mem_map_of_mem hn))
  | named => exact decided_of_some rfl (by simp [decision]) (by simp [decision]) (.inl rfl)
  | resolved hstable hranked hresolved =>
      cases hresolved with
      | @selected best others hlist =>
          have hbest := hranked.best best (hlist ▸ List.mem_cons_self)
          obtain ⟨node, hn, hid, -⟩ := hbest.offered
          exact decided_of_some rfl hbest.matching.2.2.1 hbest.matching.2.2.2 (.inr (List.mem_map.mpr ⟨node, hn, hid⟩))
      | ambiguous => exact decided_of_none rfl (.inl rfl)
      | unresolved => exact decided_of_none rfl (.inr rfl)
      | created => exact decided_of_some rfl (by simp [decision]) (by simp [decision]) (.inl rfl)

/-- What the engine proposes carries the times and the origin of the input. -/
structure Stamped (input : ExtractionInput) (event : NewEvent MemoryEvent) : Prop where
  eventType : event.eventType.str = event.payload.eventType
  recordedAt : event.recordedAt = input.recordedAt
  agent : event.agentId = input.agentId
  session : event.sessionId = input.sessionId

theorem nodeEvent_stamped {node : MemoryNode} {event : NewEvent MemoryEvent}
    (h : nodeEvent provider input fingerprint node = .ok event) : Stamped input event ∧
      event.id.toString = "event:auto:node:" ++ hex (stableHash (nodeTuple provider input fingerprint node)) := by
  obtain ⟨id, hname, rfl⟩ := named_event h
  exact ⟨⟨rfl, rfl, rfl, rfl⟩, hname⟩

theorem factEvent_stamped {fact : MemoryFact} {event : NewEvent MemoryEvent}
    (h : factEvent provider input fingerprint fact = .ok event) : Stamped input event ∧
      event.id.toString = "event:auto:fact:" ++ hex (stableHash (factTuple provider input fingerprint fact)) := by
  obtain ⟨id, hname, rfl⟩ := named_event h
  exact ⟨⟨rfl, rfl, rfl, rfl⟩, hname⟩

theorem providerEvidence_valid {span : Option TextSpan} {evidence : Evidence}
    (h : providerEvidence provider span = .ok evidence) : evidence.validate = .ok () := by
  rw [providerEvidence] at h
  obtain ⟨bare, hbare, h⟩ := bind_eq_ok.mp h
  rw [Evidence.new] at hbare
  obtain ⟨hvalid, hbare⟩ := unit_bind_eq_ok.mp hbare
  obtain rfl := Except.ok.inj hbare
  cases span with
  | none =>
      obtain rfl := Except.ok.inj h
      exact hvalid
  | some span =>
      obtain ⟨locator, hlocator, h⟩ := bind_eq_ok.mp h
      obtain rfl := Except.ok.inj h
      rw [Evidence.validate] at hvalid ⊢
      simp only [unit_bind_eq_ok, validateText_eq_ok, validateOptionalText_eq_ok] at hvalid ⊢
      refine ⟨hvalid.1, hvalid.2.1, fun text htext => ?_, hvalid.2.2.2⟩
      obtain rfl := Option.some.inj htext
      rw [formatted_eq_ok.mp hlocator]
      refine @trimmed_number _ 'b'
        ("ytes:".toList ++ (toString span.start).toList ++ "-".toList) ?_ (by decide) span.stop
      rw [String.toList_append, String.toList_append]
      rfl

structure RecordedAs (provider : Text) (input : ExtractionInput) (fingerprint : String) (relation : ExtractedRelation)
    (sourceId targetId : EntityId) (fact : MemoryFact) : Prop where
  valid : fact.validate = .ok ()
  recordedAt : fact.recordedAt = input.recordedAt
  agent : fact.agentId = input.agentId
  session : fact.sessionId = input.sessionId
  source : fact.source = sourceId
  text : fact.relation = relation.relation
  target : fact.target = targetId
  supersedes : fact.supersedes = none
  name : fact.id.toString = "fact:auto:" ++
    hex (stableHash (relationTuple provider input fingerprint relation sourceId targetId))

theorem buildFact_recordedAs (hinput : SoundInput input) {relation : ExtractedRelation}
    {sourceLink targetLink : LinkDecision} {source target : EntityId} {fact : MemoryFact}
    (h : buildFact provider input fingerprint relation sourceLink targetLink source target = .ok fact) :
    RecordedAs provider input fingerprint relation source target fact := by
  rw [buildFact] at h
  obtain ⟨text, htext, h⟩ := bind_eq_ok.mp h
  obtain ⟨id, hid, h⟩ := bind_eq_ok.mp h
  obtain ⟨origin, -, h⟩ := bind_eq_ok.mp h
  obtain ⟨bare, hbare, h⟩ := bind_eq_ok.mp h
  obtain ⟨evidence, hevidence, h⟩ := bind_eq_ok.mp h
  obtain ⟨evidenced, hevidenced, h⟩ := bind_eq_ok.mp h
  rw [MemoryFact.new] at hbare
  obtain ⟨hvalid, hbare⟩ := unit_bind_eq_ok.mp hbare
  obtain rfl := Except.ok.inj hbare
  rw [MemoryFact.withEvidence] at hevidenced
  obtain ⟨items, hitems, hevidenced⟩ := bind_eq_ok.mp hevidenced
  obtain rfl := Except.ok.inj hevidenced
  have hname : id.toString = "fact:auto:" ++
      hex (stableHash (relationTuple provider input fingerprint relation source target)) := by
    rw [TextId.toString, TextId.text_of_new hid]
    exact formatted_eq_ok.mp htext
  cases huntil : relation.validUntil with
  | some validUntil =>
      rw [huntil] at h
      dsimp only at h
      rw [MemoryFact.until] at h
      obtain ⟨hlast, h⟩ := unit_bind_eq_ok.mp h
      obtain rfl := Except.ok.inj h
      exact ⟨hlast, rfl, rfl, rfl, rfl, rfl, rfl, rfl, hname⟩
  | none =>
      rw [huntil] at h
      obtain rfl := Except.ok.inj h
      refine ⟨?_, rfl, rfl, rfl, rfl, rfl, rfl, rfl, hname⟩
      rw [MemoryFact.validate_eq_ok] at hvalid ⊢
      obtain ⟨hrelation, -, -, -, horigin⟩ := hvalid
      rw [Vec.push, Vec.of_eq_ok] at hitems
      refine ⟨hrelation, hinput.occurred, fun _ hu => (by cases hu), ?_, fun item hi => ?_⟩
      · dsimp only
        rw [hitems]
        exact List.append_ne_nil_of_right_ne_nil _ (List.cons_ne_nil _ _)
      · dsimp only at hi
        rw [hitems, List.mem_append, List.mem_singleton] at hi
        obtain hi | rfl := hi
        · exact horigin item hi
        · have hitem : validateEvidence [item] = .ok () := by
            rw [validateEvidence, providerEvidence_valid hevidence]
            rfl
          exact validateEvidence_eq_ok.mp hitem item List.mem_cons_self

end WeavatrixMemory.Extraction.Recording
