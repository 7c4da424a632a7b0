import WeavatrixMemory.Projection.Bulk
import WeavatrixMemory.Snapshot.Agreement

namespace WeavatrixMemory.Snapshot.Routes

open Error Identity Domain Format Io Snapshot.Compact RoundTrip Resume Agreement Outcome
open Projection.State Projection.Memory Projection.Admission Projection.Invariant Projection.Rebuild
open Projection.Replay Projection.Parts Projection.History

def recorded : MemoryEvent → List MemoryFact
  | .factRecorded fact => [fact]
  | _ => []

/-- The projections that there are, each with the facts that callers have handed in for it: those of
accepted events, of parts and of deserialized values. -/
inductive Obtained : List MemoryFact → MemoryProjection → Prop
  | default (seeds : Seeds) : Obtained [] (.default seeds)
  | parts {seeds : Seeds} {parallelism : Nat} {nodes : List MemoryNode} {facts : List MemoryFact}
      {knownAt : Timestamp} {sourcePosition : Option UInt64} {p : MemoryProjection}
      (h : tryFromParts seeds parallelism nodes facts knownAt sourcePosition = .ok p) : Obtained facts p
  | decoded {seeds : Seeds} {bytes : Vec UInt8} {s : ProjectionSnapshot MemoryProjection}
      (h : decode seeds bytes = .ok s) : Obtained [] s.projection
  | deserialized {seeds : Seeds} {data : ProjectionData} {p : MemoryProjection}
      (h : data.deserialize seeds = .ok p) : Obtained data.facts p
  | accepted {handed : List MemoryFact} {p q : MemoryProjection} (event : StoredEvent MemoryEvent)
      (hp : Obtained handed p) (h : apply event p = .ok () q ∨ applyOwned event p = .ok () q) :
      Obtained (handed ++ recorded event.payload) q
  | rejected {handed : List MemoryFact} {p q : MemoryProjection} {e : MemoryError} (event : StoredEvent MemoryEvent)
      (hp : Obtained handed p) (h : apply event p = .error e q ∨ applyOwned event p = .error e q) : Obtained handed q

/-- What the documentation of the domain asks of a fact. -/
structure DomainValid (p : MemoryProjection) (fact : MemoryFact) : Prop where
  confidence : fact.confidence.basisPoints ≤ 10000
  relation : Trimmed fact.relation.str
  observed : fact.observedAt ≤ fact.recordedAt
  until_ : ∀ until_, fact.validUntil = some until_ → fact.validFrom < until_
  evidenced : fact.evidence.items ≠ []
  evidence : ∀ item ∈ fact.evidence.items, Trimmed item.kind.str ∧ Trimmed item.source.str ∧
    (∀ locator, item.locator = some locator → Trimmed locator.str) ∧
    ∀ digest, item.digest = some digest → Trimmed digest.str
  source : fact.source ∈ p.nodes.map NodeHistory.id
  target : fact.target ∈ p.nodes.map NodeHistory.id

/-- A snapshot whose vectors and maps are of sizes that exist. -/
structure Held (s : ProjectionSnapshot MemoryProjection) : Prop where
  nodes : s.projection.nodes.length < 2 ^ 63
  histories : ∀ history ∈ s.projection.nodes, history.later.length < 2 ^ 63
  facts : s.projection.facts.length < 2 ^ 63
  supersessions : s.projection.supersessions.size < 2 ^ 63
  retractions : s.projection.retractions.size < 2 ^ 63
  streams : s.cursor.streamVersions.size < 2 ^ 63

/-- The facts are valid, and a snapshot that is saved can be loaded. -/
structure Admissible (p : MemoryProjection) : Prop where
  facts : ∀ fact ∈ p.facts, DomainValid p fact
  stored : ∀ cursor : ReplayCursor, cursor.globalPosition = p.lastGlobalPosition → Held ⟨cursor, p⟩ →
    ∃ bytes, encode ⟨cursor, p⟩ = .ok bytes ∧
      ∀ fits seeds, ∃ q, decode seeds ⟨bytes, fits⟩ = .ok ⟨cursor, q⟩ ∧ q.data = p.data

/-- `validate` checks all of it but the confidence. -/
theorem domainValid_of_validate {p : MemoryProjection} {fact : MemoryFact} (hv : fact.validate = .ok ())
    (hends : fact.source ∈ p.nodes.map NodeHistory.id ∧ fact.target ∈ p.nodes.map NodeHistory.id)
    (hc : fact.confidence.basisPoints ≤ 10000) : DomainValid p fact := by
  obtain ⟨hrelation, hobserved, huntil, hevidenced, hevidence⟩ := MemoryFact.validate_eq_ok.mp hv
  exact ⟨hc, hrelation, hobserved, huntil, hevidenced, hevidence, hends.1, hends.2⟩

theorem gives_lift {α : Type} {x : Result α} {good : α → Prop} (h : ∀ a, x = .ok a → good a) :
    Gives (liftM x : Read α) good := by
  intro c a c' ha
  cases x with
  | error e => cases ha
  | ok b =>
      obtain ⟨rfl, -⟩ := EStateM.Result.ok.inj ha
      exact h b rfl

theorem gives_confidence : Gives readConfidence fun confidence => confidence.basisPoints ≤ 10000 := by
  apply Gives.skip
  intro value
  apply Gives.skip
  intro _
  apply gives_lift
  intro confidence h
  rw [Confidence.fromBasisPoints] at h
  split at h
  · cases h
  · rename_i hle
    rw [← Except.ok.inj h]
    exact UInt16.not_lt.mp hle

theorem gives_fact : Gives readFact fun fact => fact.confidence.basisPoints ≤ 10000 := by
  iterate 10 refine Gives.skip fun _ => ?_
  refine gives_confidence.bind fun confidence hc => ?_
  iterate 2 refine Gives.skip fun _ => ?_
  exact Gives.pure hc

theorem gives_data : Gives readProjectionData fun data => ∀ fact ∈ data.facts, fact.confidence.basisPoints ≤ 10000 := by
  refine Gives.skip fun nodes => ?_
  have hfacts : Gives (readCounted readFact) fun facts => ∀ fact ∈ facts, fact.confidence.basisPoints ≤ 10000 :=
    Gives.skip fun count => gives_fact.times count
  refine hfacts.bind fun facts hf => ?_
  iterate 3 refine Gives.skip fun _ => ?_
  exact Gives.pure hf

variable {handed : List MemoryFact} {p : MemoryProjection}

/-- The binary decoder is the one route that checks confidences. -/
theorem decode_confident {seeds : Seeds} {bytes : Vec UInt8} {s : ProjectionSnapshot MemoryProjection}
    (h : decode seeds bytes = .ok s) : Valid s.projection ∧
      ∀ fact ∈ s.projection.facts, fact.confidence.basisPoints ≤ 10000 := by
  obtain ⟨data, hstored, hdata⟩ := decode_eq_ok h
  obtain ⟨hsame, hvalid⟩ := (deserialize_holds seeds data).of_ok hdata
  refine ⟨hvalid, ?_⟩
  rw [show s.projection.facts = data.facts from congrArg ProjectionData.facts hsame]
  obtain ⟨reader, -, hread⟩ := bind_eq_ok.mp hstored
  have hgives : Gives (do let _ ← readCursor; readProjectionData : Read ProjectionData) fun data =>
      ∀ fact ∈ data.facts, fact.confidence.basisPoints ≤ 10000 := Gives.skip fun _ => gives_data
  cases hr : (do let _ ← readCursor; readProjectionData : Read ProjectionData) reader with
  | error e t =>
      rw [hr] at hread
      cases hread
  | ok other t =>
      rw [hr] at hread
      rw [← Except.ok.inj hread]
      exact hgives reader other t hr

theorem facts_applied {event : StoredEvent MemoryEvent} {change : Change}
    (ha : Admitted p event.metadata event.payload change) :
    (change.applied p event).facts = p.facts ++ recorded event.payload := by
  rcases event with ⟨metadata, payload⟩
  cases ha with
  | revise => exact (List.append_nil _).symm
  | add => exact (List.append_nil _).symm
  | record => rfl
  | retract => exact (List.append_nil _).symm

theorem apply_eq_error {event : StoredEvent MemoryEvent} {q : MemoryProjection} {e : MemoryError}
    (h : apply event p = .error e q ∨ applyOwned event p = .error e q) : q = p := by
  rw [applyOwned_eq, ← apply_eq, or_self, apply_eq] at h
  cases hc : admitEvent p event with
  | ok change =>
      rw [hc] at h
      cases h
  | error e =>
      rw [hc] at h
      exact (EStateM.Result.error.inj h).2.symm

theorem Obtained.valid (h : Obtained handed p) : Valid p ∧ (∀ fact ∈ handed, fact ∈ p.facts) ∧
    ∀ fact ∈ p.facts, fact ∈ handed ∨ fact.confidence.basisPoints ≤ 10000 := by
  induction h with
  | default seeds =>
      exact ⟨valid_default seeds, fun _ h => absurd h List.not_mem_nil, fun _ h => absurd h List.not_mem_nil⟩
  | parts h =>
      have hbuilt := (tryFromParts_holds _ _ _ _ _ _).of_ok h
      rw [hbuilt.facts_eq]
      exact ⟨hbuilt.valid, fun _ => id, fun _ => .inl⟩
  | decoded h =>
      obtain ⟨hvalid, hconfident⟩ := decode_confident h
      exact ⟨hvalid, fun _ h => absurd h List.not_mem_nil, fun fact hf => .inr (hconfident fact hf)⟩
  | @deserialized _ data p h =>
      obtain ⟨hdata, hvalid⟩ := (deserialize_holds _ _).of_ok h
      rw [show p.facts = data.facts from congrArg ProjectionData.facts hdata]
      exact ⟨hvalid, fun _ => id, fun _ => .inl⟩
  | accepted event _ h ih =>
      obtain ⟨hvalid, hin, hout⟩ := ih
      obtain ⟨change, ha, rfl⟩ := accepted_eq h
      rw [facts_applied ha]
      refine ⟨hvalid.applied ha, fun fact hf => ?_, fun fact hf => ?_⟩
      · rw [List.mem_append] at hf ⊢
        exact hf.imp_left (hin fact)
      · rw [List.mem_append] at hf ⊢
        obtain hf | hf := hf
        · exact (hout fact hf).imp_left .inl
        · exact .inl (.inr hf)
  | rejected event _ h ih =>
      rw [apply_eq_error h]
      exact ih

def recordedIn (log : List (StoredEvent MemoryEvent)) : List MemoryFact :=
  log.flatMap fun event => recorded event.payload

/-- Whatever a log holds, the projection of its events is one that there is, with no fact that is not in the log. -/
theorem obtained_applyAll (seeds : Seeds) (log : List (StoredEvent MemoryEvent)) :
    (∃ handed, Obtained handed (applyAll seeds log)) ∧ (applyAll seeds log).facts ⊆ recordedIn log := by
  suffices h : ∀ p, (∃ handed, Obtained handed p) →
      (∃ handed, Obtained handed (log.foldl (fun p event => after (apply event p)) p)) ∧
        (log.foldl (fun p event => after (apply event p)) p).facts ⊆ p.facts ++ recordedIn log from
    h _ ⟨[], .default seeds⟩
  induction log with
  | nil => exact fun p hp => ⟨hp, List.subset_append_left _ _⟩
  | cons event rest ih =>
      rintro p ⟨handed, hp⟩
      have hnext : (∃ handed, Obtained handed (after (apply event p))) ∧
          (after (apply event p)).facts ⊆ p.facts ++ recorded event.payload := by
        cases hresult : apply event p with
        | ok u q =>
            obtain ⟨change, ha, rfl⟩ := accepted_eq (.inl hresult)
            refine ⟨⟨_, hp.accepted event (.inl hresult)⟩, ?_⟩
            rw [after_ok, facts_applied ha]
            exact List.Subset.refl _
        | error e q =>
            refine ⟨⟨_, hp.rejected event (.inl hresult)⟩, ?_⟩
            rw [after_error, apply_eq_error (.inl hresult)]
            exact List.subset_append_left _ _
      obtain ⟨hobtained, hfacts⟩ := ih _ hnext.1
      refine ⟨hobtained, List.Subset.trans hfacts ?_⟩
      have hcons : recordedIn (event :: rest) = recorded event.payload ++ recordedIn rest := List.flatMap_cons
      rw [hcons, ← List.append_assoc]
      refine List.append_subset.mpr ⟨?_, List.subset_append_right _ _⟩
      exact List.Subset.trans hnext.2 (List.subset_append_left _ _)

def allAccepted : MemoryProjection → List (StoredEvent MemoryEvent) → Bool
  | _, [] => true
  | p, event :: rest => accepted (apply event p) && allAccepted (after (apply event p)) rest

theorem Obtained.all (hp : Obtained handed p) {log : List (StoredEvent MemoryEvent)} (h : allAccepted p log = true) :
    Obtained (handed ++ recordedIn log) (log.foldl (fun p event => after (apply event p)) p) := by
  induction log generalizing handed p with
  | nil =>
      rw [recordedIn, List.flatMap_nil, List.append_nil]
      exact hp
  | cons event rest ih =>
      rw [allAccepted, Bool.and_eq_true] at h
      have hnext := hp.accepted event (.inl (eq_ok_of_accepted h.1))
      rw [recordedIn, List.flatMap_cons, ← List.append_assoc]
      exact ih hnext h.2

theorem obtained_of_allAccepted {seeds : Seeds} {log : List (StoredEvent MemoryEvent)} {handed : List MemoryFact}
    (h : allAccepted (.default seeds) log = true) (hrecorded : recordedIn log = handed) :
    Obtained handed (applyAll seeds log) := by
  rw [← hrecorded]
  exact (Obtained.default seeds).all h

theorem loads (hp : Valid p) (hconfident : ∀ fact ∈ p.facts, fact.confidence.basisPoints ≤ 10000)
    {cursor : ReplayCursor} (hposition : cursor.globalPosition = p.lastGlobalPosition) (h : Held ⟨cursor, p⟩) :
    ∃ bytes, encode ⟨cursor, p⟩ = .ok bytes ∧
      ∀ fits seeds, ∃ q, decode seeds ⟨bytes, fits⟩ = .ok ⟨cursor, q⟩ ∧ q.data = p.data := by
  have hdata : Encodable p.data := ⟨h.nodes, h.histories, h.facts, hconfident, h.supersessions, h.retractions⟩
  have hstreams : cursor.streamVersions.size < 2 ^ 64 := h.streams.trans (by decide)
  have hload : ∀ seeds, ∃ bytes q, encode ⟨cursor, p⟩ = .ok bytes ∧
      (∀ fits, decode seeds ⟨bytes, fits⟩ = .ok ⟨cursor, q⟩) ∧ q.data = p.data := by
    intro seeds
    obtain ⟨q, hq, halike⟩ := rebuilt hp h.facts seeds
    obtain ⟨bytes, hb, hd⟩ := @decode_encode q ⟨cursor, p⟩ hdata hstreams hposition seeds hq halike.data
    exact ⟨bytes, q, hb, hd, halike.data⟩
  obtain ⟨bytes, -, hb, -⟩ := hload ⟨0, 0⟩
  refine ⟨bytes, hb, fun fits seeds => ?_⟩
  obtain ⟨other, q, hother, hd, hsame⟩ := hload seeds
  obtain rfl : bytes = other := Except.ok.inj (hb.symm.trans hother)
  exact ⟨q, hd fits, hsame⟩

/-- Every route enforces all of the domain's rules but the bound on confidences, so it comes down to
the confidences of the facts that are handed in. -/
theorem admissible_iff (handed : List MemoryFact) (p : MemoryProjection) (h : Obtained handed p) :
    Admissible p ↔ ∀ fact ∈ handed, fact.confidence.basisPoints ≤ 10000 := by
  obtain ⟨hvalid, hin, hout⟩ := h.valid
  constructor
  · intro hadmissible fact hf
    exact (hadmissible.facts fact (hin fact hf)).confidence
  · intro hhanded
    have hconfident : ∀ fact ∈ p.facts, fact.confidence.basisPoints ≤ 10000 := by
      intro fact hf
      obtain hf | hf := hout fact hf
      · exact hhanded fact hf
      · exact hf
    refine ⟨fun fact hf => ?_, fun cursor hposition hheld => loads hvalid hconfident hposition hheld⟩
    exact domainValid_of_validate (hvalid.sound.valid fact hf) (hvalid.sound.endpoints fact hf) (hconfident fact hf)

/-- A fact whose confidence is six times certainty, as the derived `Deserialize` lets it in. -/
def overconfident : MemoryFact :=
  { Common.fact Common.factOne (Common.ts 10) (Common.ts 20) none with confidence := ⟨60000⟩ }

def overconfidentLog : List (StoredEvent MemoryEvent) :=
  [Common.stored 0 (Common.event (Common.eventId 0) (Common.ts 1) (.nodeUpserted (Common.node Common.task))),
    Common.stored 1 (Common.event (Common.eventId 1) (Common.ts 1) (.nodeUpserted (Common.node Common.file))),
    Common.stored 2 (Common.event (Common.eventId 2) (Common.ts 20) (.factRecorded overconfident))]

theorem obtained_overconfident : Obtained [overconfident] (applyAll ⟨1, 2⟩ overconfidentLog) :=
  obtained_of_allAccepted (by decide +kernel) (by rfl)

theorem admissible_iff_overconfident : Admissible (applyAll ⟨1, 2⟩ overconfidentLog) ↔
    ∀ fact ∈ [overconfident], fact.confidence.basisPoints ≤ 10000 :=
  admissible_iff [overconfident] (applyAll ⟨1, 2⟩ overconfidentLog) obtained_overconfident

/-- The event is accepted and the snapshot is written, but it can never be loaded again. -/
theorem overconfident_unloadable :
    Obtained [overconfident] (applyAll ⟨1, 2⟩ overconfidentLog) ∧
      (∃ bytes fits, encode ⟨⟨some 2, ∅⟩, applyAll ⟨1, 2⟩ overconfidentLog⟩ = .ok bytes ∧
        (decode ⟨3, 4⟩ ⟨bytes, fits⟩).map (·.projection.data) =
          .error (.invalidValue "confidence" "must be between 0 and 10,000 basis points")) ∧
      ¬ Admissible (applyAll ⟨1, 2⟩ overconfidentLog) := by
  refine ⟨obtained_overconfident, ⟨bytesOf (applyAll ⟨1, 2⟩ overconfidentLog).data, by decide +kernel,
    by decide +kernel, by decide +kernel⟩, fun h => ?_⟩
  have hfact : overconfident ∈ (applyAll ⟨1, 2⟩ overconfidentLog).facts := by decide +kernel
  exact absurd (h.facts overconfident hfact).confidence (by decide)

end WeavatrixMemory.Snapshot.Routes
