import WeavatrixMemory.Projection.Invariant

namespace WeavatrixMemory.Projection.Replay

open Error Identity Domain Index State Memory Admission Invariant

structure ProjectionTrait (E P : Type) where
  default : P
  prepareReplay : List (StoredEvent E) → P → P
  apply : StoredEvent E → Update P Unit
  applyOwned : StoredEvent E → Update P Unit

/-- Its instance for the memory projection. The seeds are those of the default value. -/
def memory (seeds : Seeds) : ProjectionTrait MemoryEvent MemoryProjection where
  default := .default seeds
  prepareReplay := prepareReplay
  apply := Memory.apply
  applyOwned := Memory.applyOwned

structure ReplayCursor where
  globalPosition : Option UInt64
  streamVersions : BTreeMap StreamId UInt64
deriving DecidableEq

def ReplayCursor.default : ReplayCursor := ⟨none, ∅⟩

structure ProjectionSnapshot (P : Type) where
  cursor : ReplayCursor
  projection : P

variable {E P : Type}

def validateNext (cursor : ReplayCursor) (eventIds : List EventId) (event : StoredEvent E)
    (requireZeroStart : Bool) : Result (UInt64 × UInt64) := do
  throwIf (event.metadata.id ∈ eventIds) (.duplicateEvent event.metadata.id.toString)
  let expectedPosition ← following cursor.globalPosition
  throwIf (requireZeroStart ∧ cursor.globalPosition = none ∧ expectedPosition ≠ 0)
    (.invalidReplay "complete replay must start at zero")
  throwIf (event.metadata.globalPosition ≠ expectedPosition)
    (.invalidReplay s!"global position {event.metadata.globalPosition}, expected {expectedPosition}")
  let expectedVersion ← following cursor.streamVersions[event.metadata.streamId]?
  throwIf (event.metadata.streamVersion ≠ expectedVersion)
    (.invalidReplay (s!"stream {event.metadata.streamId.toString} version " ++
      s!"{event.metadata.streamVersion}, expected {expectedVersion}"))
  .ok (expectedPosition, expectedVersion)

def ReplayCursor.advance (cursor : ReplayCursor) (stream : StreamId) (position version : UInt64) :
    ReplayCursor where
  globalPosition := some position
  streamVersions := cursor.streamVersions.insert stream version

/-- The loop that both sequence functions have. The set of event identifiers is a list. -/
def applyLoop (step : StoredEvent E → Update P Unit) (requireZeroStart : Bool) :
    List (StoredEvent E) → List EventId → P → ReplayCursor → Result (P × ReplayCursor)
  | [], _, projection, cursor => .ok (projection, cursor)
  | event :: rest, eventIds, projection, cursor => do
      let (position, version) ← validateNext cursor eventIds event requireZeroStart
      let projection ← runOn (step event) projection
      applyLoop step requireZeroStart rest (event.metadata.id :: eventIds) projection
        (cursor.advance event.metadata.streamId position version)

def applySequence (trait : ProjectionTrait E P) (projection : P) (cursor : ReplayCursor)
    (events : List (StoredEvent E)) (requireZeroStart : Bool) : Result (P × ReplayCursor) :=
  applyLoop trait.apply requireZeroStart events [] (trait.prepareReplay events projection) cursor

def applyOwnedSequence (trait : ProjectionTrait E P) (projection : P) (cursor : ReplayCursor)
    (events : List (StoredEvent E)) (requireZeroStart : Bool) : Result (P × ReplayCursor) :=
  applyLoop trait.applyOwned requireZeroStart events [] (trait.prepareReplay events projection) cursor

def replayTracked (trait : ProjectionTrait E P) (events : List (StoredEvent E)) : Result (P × ReplayCursor) :=
  applySequence trait trait.default .default events true

def replay (trait : ProjectionTrait E P) (events : List (StoredEvent E)) : Result P :=
  (replayTracked trait events).map (·.1)

def replayOwned (trait : ProjectionTrait E P) (events : List (StoredEvent E)) : Result P :=
  (applyOwnedSequence trait trait.default .default events true).map (·.1)

def resume (trait : ProjectionTrait E P) (snapshot : ProjectionSnapshot P) (tail : List (StoredEvent E)) :
    Result (P × ReplayCursor) :=
  applySequence trait snapshot.projection snapshot.cursor tail false

structure Follows (cursor : ReplayCursor) (eventIds : List EventId) (event : StoredEvent E) : Prop where
  fresh : event.metadata.id ∉ eventIds
  position : following cursor.globalPosition = .ok event.metadata.globalPosition
  version : following cursor.streamVersions[event.metadata.streamId]? = .ok event.metadata.streamVersion

theorem validateNext_eq_ok {cursor : ReplayCursor} {eventIds : List EventId} {event : StoredEvent E}
    {requireZeroStart : Bool} {r : UInt64 × UInt64} :
    validateNext cursor eventIds event requireZeroStart = .ok r ↔
      Follows cursor eventIds event ∧ r = (event.metadata.globalPosition, event.metadata.streamVersion) := by
  simp only [validateNext, bind_eq_ok, throwIf_eq_ok, not_not, ne_eq, Except.ok.injEq]
  constructor
  · rintro ⟨_, hf, position, hp, _, _, _, rfl, version, hv, _, rfl, rfl⟩
    exact ⟨⟨hf, hp, hv⟩, rfl⟩
  · rintro ⟨h, rfl⟩
    refine ⟨(), h.fresh, _, h.position, (), ?_, (), rfl, _, h.version, (), rfl, rfl⟩
    -- A cursor without a position expects position zero.
    rintro ⟨_, hn, hz⟩
    have hpos := h.position
    rw [hn, following, Except.ok.injEq] at hpos
    exact hz hpos.symm

def ReplayCursor.after (cursor : ReplayCursor) (event : StoredEvent E) : ReplayCursor :=
  cursor.advance event.metadata.streamId event.metadata.globalPosition event.metadata.streamVersion

variable {step : StoredEvent E → Update P Unit} {requireZeroStart : Bool}

theorem applyLoop_cons_eq_ok {event : StoredEvent E} {rest : List (StoredEvent E)} {eventIds : List EventId}
    {p : P} {cursor : ReplayCursor} {r : P × ReplayCursor} :
    applyLoop step requireZeroStart (event :: rest) eventIds p cursor = .ok r ↔
      Follows cursor eventIds event ∧ ∃ q, step event p = .ok () q ∧
        applyLoop step requireZeroStart rest (event.metadata.id :: eventIds) q (cursor.after event) = .ok r := by
  simp only [applyLoop, bind_eq_ok, validateNext_eq_ok, runOn_eq_ok]
  constructor
  · rintro ⟨_, ⟨hf, rfl⟩, q, hq, hr⟩
    exact ⟨hf, q, hq, hr⟩
  · rintro ⟨hf, q, hq, hr⟩
    exact ⟨_, ⟨hf, rfl⟩, q, hq, hr⟩

theorem applyLoop_run {inv : List (StoredEvent E) → P → ReplayCursor → Prop}
    (hstep : ∀ before event p q cursor, inv before p cursor → step event p = .ok () q →
      inv (before ++ [event]) q (cursor.after event))
    {events before : List (StoredEvent E)} {eventIds : List EventId} {p q : P} {cursor cursor' : ReplayCursor}
    (h : inv before p cursor)
    (hr : applyLoop step requireZeroStart events eventIds p cursor = .ok (q, cursor')) :
    inv (before ++ events) q cursor' := by
  induction events generalizing before eventIds p cursor with
  | nil =>
      rw [applyLoop, Except.ok.injEq, Prod.mk.injEq] at hr
      obtain ⟨rfl, rfl⟩ := hr
      rwa [List.append_nil]
  | cons event rest ih =>
      obtain ⟨-, middle, hm, hr⟩ := applyLoop_cons_eq_ok.mp hr
      have hrest := ih (hstep before event p middle cursor h hm) hr
      rwa [List.append_assoc, List.singleton_append] at hrest

/-- The requirement of a zero start never rejects anything. -/
theorem applyLoop_zero_start (events : List (StoredEvent E)) (eventIds : List EventId) (p : P)
    (cursor : ReplayCursor) {r : P × ReplayCursor} :
    applyLoop step true events eventIds p cursor = .ok r ↔
      applyLoop step false events eventIds p cursor = .ok r := by
  induction events generalizing eventIds p cursor with
  | nil => rfl
  | cons event rest ih =>
      rw [applyLoop_cons_eq_ok, applyLoop_cons_eq_ok]
      simp only [ih]

theorem applyLoop_append {before after : List (StoredEvent E)} {eventIds : List EventId} {p : P}
    {cursor : ReplayCursor} {r : P × ReplayCursor} :
    applyLoop step requireZeroStart (before ++ after) eventIds p cursor = .ok r ↔
      ∃ q middle, applyLoop step requireZeroStart before eventIds p cursor = .ok (q, middle) ∧
        applyLoop step requireZeroStart after
          ((before.map (·.metadata.id)).reverse ++ eventIds) q middle = .ok r := by
  induction before generalizing eventIds p cursor with
  | nil =>
      simp only [List.nil_append, List.map_nil, List.reverse_nil, applyLoop, Except.ok.injEq, Prod.mk.injEq]
      constructor
      · exact fun h => ⟨p, cursor, ⟨rfl, rfl⟩, h⟩
      · rintro ⟨_, _, ⟨rfl, rfl⟩, h⟩
        exact h
  | cons event rest ih =>
      rw [List.cons_append, applyLoop_cons_eq_ok]
      simp only [ih, applyLoop_cons_eq_ok, List.map_cons, List.reverse_cons, List.append_assoc,
        List.singleton_append]
      constructor
      · rintro ⟨hf, q, hq, q', middle, hm, hr⟩
        exact ⟨q', middle, ⟨hf, q, hq, hm⟩, hr⟩
      · rintro ⟨q', middle, ⟨hf, q, hq, hm⟩, hr⟩
        exact ⟨hf, q, hq, q', middle, hm, hr⟩

/-- Identifiers seen earlier only matter if they come again. -/
theorem applyLoop_seen {events : List (StoredEvent E)} {eventIds seen : List EventId} {p : P}
    {cursor : ReplayCursor} {r : P × ReplayCursor} :
    applyLoop step requireZeroStart events (eventIds ++ seen) p cursor = .ok r ↔
      applyLoop step requireZeroStart events eventIds p cursor = .ok r ∧
        ∀ event ∈ events, event.metadata.id ∉ seen := by
  induction events generalizing eventIds p cursor with
  | nil => simp [applyLoop]
  | cons event rest ih =>
      simp only [applyLoop_cons_eq_ok, ← List.cons_append, ih, List.forall_mem_cons]
      constructor
      · rintro ⟨⟨hf, hp, hv⟩, q, hq, hr, hrest⟩
        rw [List.mem_append, not_or] at hf
        exact ⟨⟨⟨hf.1, hp, hv⟩, q, hq, hr⟩, hf.2, hrest⟩
      · rintro ⟨⟨⟨hf, hp, hv⟩, q, hq, hr⟩, hs, hrest⟩
        exact ⟨⟨by rw [List.mem_append, not_or]; exact ⟨hf, hs⟩, hp, hv⟩, q, hq, hr, hrest⟩

/-- Projections that no event tells apart end up as such. -/
theorem applyLoop_simulated {same : P → P → Prop}
    (hstep : ∀ event p q p', same p q → step event p = .ok () p' → ∃ q', step event q = .ok () q' ∧ same p' q')
    {events : List (StoredEvent E)} {eventIds : List EventId} {p q p' : P} {cursor cursor' : ReplayCursor}
    (h : same p q) (hp : applyLoop step requireZeroStart events eventIds p cursor = .ok (p', cursor')) :
    ∃ q', applyLoop step requireZeroStart events eventIds q cursor = .ok (q', cursor') ∧ same p' q' := by
  induction events generalizing eventIds p q cursor with
  | nil =>
      rw [applyLoop, Except.ok.injEq, Prod.mk.injEq] at hp
      obtain ⟨rfl, rfl⟩ := hp
      exact ⟨q, rfl, h⟩
  | cons event rest ih =>
      obtain ⟨hf, middle, hm, hr⟩ := applyLoop_cons_eq_ok.mp hp
      obtain ⟨middle', hm', hsame⟩ := hstep event p q middle h hm
      obtain ⟨q', hq', hsame'⟩ := ih hsame hr
      exact ⟨q', applyLoop_cons_eq_ok.mpr ⟨hf, middle', hm', hq'⟩, hsame'⟩

end WeavatrixMemory.Projection.Replay
