import WeavatrixMemory.Common
import WeavatrixMemory.Store.Commit

namespace WeavatrixMemory.Store.Validators

open Error Identity Domain Logs InMemory EventLog Commit Projection.Replay

variable {E P : Type}

/-- The stores that a sequence of append calls leads to, whether they succeed or fail. -/
inductive Reachable : InMemoryStore E → Prop
  | default : Reachable .default
  | append {s : InMemoryStore E} (stream : StreamId) (expected : ExpectedVersion) (batch : List (NewEvent E)) :
      Reachable s → Reachable (after (append stream expected batch s))
  | appendOwned {s : InMemoryStore E} (stream : StreamId) (expected : ExpectedVersion)
      (batch : List (NewEvent E)) : Reachable s → Reachable (after (appendOwned stream expected batch s))
  | appendOwnedReceipt {s : InMemoryStore E} (stream : StreamId) (expected : ExpectedVersion)
      (batch : List (NewEvent E)) : Reachable s → Reachable (after (appendOwnedReceipt stream expected batch s))

/-- The invariant of the store. -/
structure WellFormed (s : InMemoryStore E) : Prop where
  position : ∀ i (event : StoredEvent E), s.events[i]? = some event → event.metadata.globalPosition.toNat = i
  ascending : ∀ stream, ((s.streams stream).getD []).Pairwise (· < ·)
  indexes : ∀ stream i, i ∈ (s.streams stream).getD [] ↔
    ∃ event : StoredEvent E, s.events[i]? = some event ∧ event.metadata.streamId = stream
  version : ∀ stream k i (event : StoredEvent E), ((s.streams stream).getD [])[k]? = some i →
    s.events[i]? = some event → event.metadata.streamVersion.toNat = k
  ids : (s.events.map (·.metadata.id)).Nodup
  eventIds : ∀ id, s.eventIds id = true ↔ id ∈ s.events.map (·.metadata.id)

theorem Lawful.wellFormed {log : List (StoredEvent E)} (h : Lawful Continues log) : WellFormed (ofLog log) where
  position := by
    apply h.induction
    · intro i event hi
      cases hi
    · intro log last _ hc ih i event hi
      by_cases hlt : i < log.length
      · exact ih i event (by rwa [ofLog, List.getElem?_append_left hlt] at hi)
      · have hle := (List.getElem?_eq_some_iff.mp hi).1
        rw [ofLog, List.length_append, List.length_singleton] at hle
        obtain rfl : i = log.length := by omega
        rw [ofLog, List.getElem?_concat_length, Option.some.injEq] at hi
        rw [← hi, hc.position]
  ascending := fun stream => by
    rw [streams_getD]
    exact positionsOf_ascending log stream
  indexes := fun stream i => by
    rw [streams_getD]
    exact mem_positionsOf
  version := fun stream k i event hk hi => by
    rw [streams_getD] at hk
    obtain ⟨other, ho, -, hv⟩ := positionsOf_version h hk
    obtain rfl : other = event := Option.some.inj (ho.symm.trans hi)
    exact hv
  ids := by
    apply h.induction
    · exact List.nodup_nil
    · intro log last _ hc ih
      rw [ofLog, List.map_append, List.nodup_append]
      refine ⟨ih, List.nodup_singleton _, fun id hid last' hlast heq => ?_⟩
      rw [heq, List.mem_singleton.mp hlast] at hid
      exact hc.fresh hid
  eventIds := fun id => decide_eq_true_iff

theorem appendOwned_eq (stream : StreamId) (expected : ExpectedVersion) (batch : List (NewEvent E))
    (s : InMemoryStore E) : appendOwned stream expected batch s = append stream expected batch s := by
  rw [appendOwned, append, bind_apply, bind_apply, get_apply]
  simp only [prepareAppendOwned_eq]

theorem appendOwnedReceipt_eq (stream : StreamId) (expected : ExpectedVersion) (batch : List (NewEvent E))
    (s : InMemoryStore E) : appendOwnedReceipt stream expected batch s =
      match append stream expected batch s with
      | .ok committed t => .ok (AppendReceipt.fromEvents committed) t
      | .error e t => .error e t := by
  rw [appendOwnedReceipt, append, bind_apply, bind_apply, get_apply]
  simp only [prepareAppendOwned_eq, commitPreparedOwned_eq]
  cases prepareAppend s stream expected batch <;> rfl

theorem after_appendOwnedReceipt (stream : StreamId) (expected : ExpectedVersion) (batch : List (NewEvent E))
    (s : InMemoryStore E) :
    after (appendOwnedReceipt stream expected batch s) = after (append stream expected batch s) := by
  rw [appendOwnedReceipt_eq]
  cases append stream expected batch s <;> rfl

theorem after_append {log : List (StoredEvent E)} (h : Lawful Continues log) (stream : StreamId)
    (expected : ExpectedVersion) (batch : List (NewEvent E)) :
    ∃ committed, Lawful Continues (log ++ committed) ∧
      after (append stream expected batch (ofLog log)) = ofLog (log ++ committed) := by
  rw [append_ofLog h]
  cases hc : prepareAppend (ofLog log) stream expected batch with
  | error e =>
      refine ⟨[], ?_, ?_⟩
      · rwa [List.append_nil]
      · rw [List.append_nil]
        rfl
  | ok committed =>
      exact ⟨committed, lawful_append.mpr ⟨h, (prepareAppend_committable h hc).1.grows⟩, rfl⟩

/-- The reachable stores are the stores of lawful logs. -/
theorem reachable_iff {s : InMemoryStore E} : Reachable s ↔ ∃ log, Lawful Continues log ∧ s = ofLog log := by
  constructor
  · intro hs
    induction hs with
    | default => exact ⟨[], lawful_nil, ofLog_nil.symm⟩
    | append stream expected batch _ ih =>
        obtain ⟨log, h, rfl⟩ := ih
        obtain ⟨committed, hc, heq⟩ := after_append h stream expected batch
        exact ⟨_, hc, heq⟩
    | appendOwned stream expected batch _ ih =>
        obtain ⟨log, h, rfl⟩ := ih
        obtain ⟨committed, hc, heq⟩ := after_append h stream expected batch
        rw [appendOwned_eq]
        exact ⟨_, hc, heq⟩
    | appendOwnedReceipt stream expected batch _ ih =>
        obtain ⟨log, h, rfl⟩ := ih
        obtain ⟨committed, hc, heq⟩ := after_append h stream expected batch
        rw [after_appendOwnedReceipt]
        exact ⟨_, hc, heq⟩
  · intro hs
    obtain ⟨log, h, rfl⟩ := hs
    apply h.induction
    · rw [ofLog_nil]
      exact .default
    · intro log event h hc ih
      have happend := append_ofLog h event.metadata.streamId .any [proposal event]
      rw [prepareAppend_proposal h hc] at happend
      have hnext := Reachable.append event.metadata.streamId .any [proposal event] ih
      rw [happend] at hnext
      exact hnext

structure Tracks (log : List (StoredEvent E)) (cursor : ReplayCursor) : Prop where
  position : nextOf cursor.globalPosition = log.length
  version : ∀ stream : StreamId, nextOf cursor.streamVersions[stream]? = (positionsOf log stream).length

theorem tracks_nil : Tracks ([] : List (StoredEvent E)) .default where
  position := rfl
  version := fun stream => by simp [ReplayCursor.default, nextOf, positionsOf]

theorem Tracks.after {log : List (StoredEvent E)} {cursor : ReplayCursor} (h : Tracks log cursor)
    {event : StoredEvent E} (hc : Continues log event) : Tracks (log ++ [event]) (cursor.after event) where
  position := by
    rw [ReplayCursor.after, ReplayCursor.advance, nextOf, hc.position, List.length_append]
    rfl
  version := fun stream => by
    rw [positionsOf_snoc, ReplayCursor.after, ReplayCursor.advance, Std.ExtTreeMap.getElem?_insert]
    by_cases hs : event.metadata.streamId = stream
    · subst hs
      have hself : compare event.metadata.streamId event.metadata.streamId = .eq := Std.ReflCmp.compare_self
      rw [if_pos hself, if_pos rfl, List.length_append, nextOf, hc.version]
      rfl
    · have hne : compare event.metadata.streamId stream ≠ .eq :=
        fun he => hs (Std.LawfulEqOrd.eq_of_compare he)
      rw [if_neg hne, if_neg hs, List.append_nil]
      exact h.version stream

theorem Tracks.follows_iff {log : List (StoredEvent E)} {cursor : ReplayCursor} (h : Tracks log cursor)
    {event : StoredEvent E} :
    Follows cursor (log.map (·.metadata.id)).reverse event ↔ Continues log event := by
  have hposition := h.position
  have hversion := h.version event.metadata.streamId
  constructor
  · intro hf
    refine ⟨?_, ?_, fun hid => hf.fresh (List.mem_reverse.mpr hid)⟩
    · rw [← hposition]
      exact following_eq_ok.mp hf.position
    · rw [← hversion]
      exact following_eq_ok.mp hf.version
  · intro hc
    refine ⟨fun hid => hc.fresh (List.mem_reverse.mp hid), following_eq_ok.mpr ?_, following_eq_ok.mpr ?_⟩
    · rw [hc.position, hposition]
    · rw [hc.version, hversion]

theorem applyLoop_accepts {step : StoredEvent E → Update P Unit} (hstep : ∀ event p, ∃ q, step event p = .ok () q)
    {log : List (StoredEvent E)} (events : List (StoredEvent E)) {cursor : ReplayCursor}
    (h : Tracks log cursor) (p : P) :
    (∃ r, applyLoop step true events (log.map (·.metadata.id)).reverse p cursor = .ok r) ↔
      Grows Continues log events := by
  induction events generalizing log cursor p with
  | nil => exact ⟨fun _ => trivial, fun _ => ⟨_, rfl⟩⟩
  | cons event rest ih =>
      simp only [applyLoop_cons_eq_ok, h.follows_iff, Grows]
      have hids : event.metadata.id :: (log.map (·.metadata.id)).reverse =
          ((log ++ [event]).map (·.metadata.id)).reverse := by simp
      rw [hids]
      constructor
      · intro hr
        obtain ⟨r, hc, q, -, hr⟩ := hr
        exact ⟨hc, (ih (h.after hc) q).mp ⟨r, hr⟩⟩
      · intro hg
        obtain ⟨hc, hg⟩ := hg
        obtain ⟨q, hq⟩ := hstep event p
        obtain ⟨r, hr⟩ := (ih (h.after hc) q).mpr hg
        exact ⟨r, hc, q, hq, hr⟩

def usizeMax : Nat := 2 ^ 64 - 1

theorem loadAll_eq {log : List (StoredEvent E)} (events : Vec (StoredEvent E)) :
    loadAll (ofLog log) none usizeMax = events.items ↔ log = events.items := by
  have hall : loadAll (ofLog log) none usizeMax = log.take usizeMax := by
    rw [loadAll]
    have hfilter : (ofLog log).events.filter (fun event : StoredEvent E =>
        (none : Option UInt64).all (· < event.metadata.globalPosition)) = log :=
      List.filter_eq_self.mpr fun _ _ => rfl
    rw [hfilter]
  have hfits := events.fits
  rw [hall]
  constructor
  · intro h
    rw [← h, List.length_take] at hfits
    rw [← h, List.take_of_length_le]
    simp only [usizeMax] at hfits ⊢
    omega
  · intro h
    rw [h, List.take_of_length_le]
    simp only [usizeMax]
    omega

/-- The store keeps its invariant, and the three places that state the law of the log agree. -/
theorem store_wellFormed (trait : ProjectionTrait E P) (haccepts : ∀ event p, ∃ q, trait.apply event p = .ok () q) :
    (∀ s : InMemoryStore E, Reachable s → WellFormed s) ∧
    ∀ events : Vec (StoredEvent E),
      ((∃ t, restore events.items = .ok t) ↔
        ∃ s, Reachable s ∧ loadAll s none usizeMax = events.items) ∧
      ((∃ t, restore events.items = .ok t) ↔ ∃ r, replayTracked trait events.items = .ok r) ∧
      ∀ s t, Reachable s → loadAll s none usizeMax = events.items → restore events.items = .ok t → t = s := by
  refine ⟨fun s hs => ?_, fun events => ⟨?_, ?_, ?_⟩⟩
  · obtain ⟨log, h, rfl⟩ := reachable_iff.mp hs
    exact Lawful.wellFormed h
  · simp only [restore_eq_ok, reachable_iff]
    constructor
    · intro h
      obtain ⟨t, hl, -⟩ := h
      exact ⟨ofLog events.items, ⟨events.items, hl, rfl⟩, (loadAll_eq events).mpr rfl⟩
    · intro h
      obtain ⟨s, ⟨log, hl, rfl⟩, hload⟩ := h
      rw [← (loadAll_eq events).mp hload]
      exact ⟨_, hl, rfl⟩
  · simp only [restore_eq_ok]
    have hloop := applyLoop_accepts haccepts events.items tracks_nil (trait.prepareReplay events.items trait.default)
    constructor
    · intro h
      obtain ⟨t, hl, -⟩ := h
      exact hloop.mpr hl
    · intro h
      exact ⟨_, hloop.mp h, rfl⟩
  · intro s t hs hload ht
    obtain ⟨log, -, rfl⟩ := reachable_iff.mp hs
    obtain ⟨-, rfl⟩ := restore_eq_ok.mp ht
    rw [(loadAll_eq events).mp hload]

/-- A projection that accepts every event and keeps nothing. -/
def accepting : ProjectionTrait E Unit where
  default := ()
  prepareReplay _ p := p
  apply _ := pure ()
  applyOwned _ := pure ()

theorem store_wellFormed_retracted_once :
    (∃ t, restore Common.retractedOnce = .ok t) ∧ (∃ r, replayTracked accepting Common.retractedOnce = .ok r) ∧
      ∃ s, Reachable s ∧ loadAll s none usizeMax = Common.retractedOnce := by
  have h := (store_wellFormed (@accepting MemoryEvent) fun _ p => ⟨p, rfl⟩).2
    ⟨Common.retractedOnce, by decide⟩
  have ht : ∃ t, restore Common.retractedOnce = .ok t := exists_ok_of_isOk (by decide +kernel)
  exact ⟨ht, h.2.1.mp ht, h.1.mp ht⟩

end WeavatrixMemory.Store.Validators
