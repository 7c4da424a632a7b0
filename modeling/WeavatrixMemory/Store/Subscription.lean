import WeavatrixMemory.Store.Crashes

namespace WeavatrixMemory.Store.Subscription

open Error Identity Domain Outcome Logs InMemory EventLog Validators Store.Frame File Faults Relation

variable {E : Type}

structure SubscriptionCheckpoint where
  globalPosition : Option UInt64
deriving DecidableEq

structure CatchUpSubscription where
  checkpoint : SubscriptionCheckpoint
  deliveredThrough : Option UInt64
  batchSize : Nat
deriving DecidableEq

def CatchUpSubscription.new (checkpoint : SubscriptionCheckpoint) (batchSize : Nat) : Result CatchUpSubscription := do
  throwIf (batchSize = 0) (.invalidValue "subscription.batch_size" "must be greater than zero")
  .ok { checkpoint := checkpoint, deliveredThrough := none, batchSize := batchSize }

inductive EventStore (E : Type)
  | memory (store : InMemoryStore E)
  | file (store : FileEventStore E)

def EventStore.inner : EventStore E → InMemoryStore E
  | .memory store => store
  | .file store => store.inner

/-- `load_all`, which the file store leaves to the store in memory. -/
def EventStore.loadAll (s : EventStore E) (after : Option UInt64) (limit : Nat) : List (StoredEvent E) :=
  match s with
  | .memory store => InMemory.loadAll store after limit
  | .file store => InMemory.loadAll store.inner after limit

def EventStore.appended (path : Clients.AppendPath) (stream : StreamId) (expected : ExpectedVersion)
    (batch : List (NewEvent E)) : EventStore E → EventStore E
  | .memory store => .memory (path.run stream expected batch store).2
  | .file store => .file (after (appendBy stream expected batch path store))

def poll (store : EventStore E) (subscription : CatchUpSubscription) :
    List (StoredEvent E) × CatchUpSubscription :=
  let events := store.loadAll subscription.checkpoint.globalPosition subscription.batchSize
  (events, { subscription with deliveredThrough := events.getLast?.map (·.metadata.globalPosition) })

def acknowledge (globalPosition : UInt64) : Update CatchUpSubscription Unit := do
  let subscription ← get
  match subscription.deliveredThrough with
  | none => throw (.invalidValue "subscription.acknowledge" "no events have been delivered")
  | some delivered => do
      throwIf (delivered < globalPosition ∨ subscription.checkpoint.globalPosition.any (globalPosition < ·))
        (.invalidValue "subscription.acknowledge" "position is outside the delivered range")
      set { subscription with
        checkpoint := { subscription.checkpoint with globalPosition := some globalPosition }
        deliveredThrough := none }

/-- A store, a subscription to it, and all that its polls have returned. -/
structure Feed (E : Type) where
  store : EventStore E
  subscription : CatchUpSubscription
  returned : List (StoredEvent E)

def Feed.polled (s : Feed E) : Feed E :=
  let (events, subscription) := poll s.store s.subscription
  { s with subscription := subscription, returned := s.returned ++ events }

inductive Step : Feed E → Feed E → Prop
  | append {s : Feed E} (path : Clients.AppendPath) (stream : StreamId) (expected : ExpectedVersion)
      (batch : List (NewEvent E)) : Step s { s with store := s.store.appended path stream expected batch }
  | poll {s : Feed E} : Step s s.polled
  | acknowledge {s : Feed E} (globalPosition : UInt64) :
      Step s { s with subscription := after (acknowledge globalPosition s.subscription) }

def CatchUpSubscription.passed (subscription : CatchUpSubscription) : Nat :=
  nextOf subscription.checkpoint.globalPosition

theorem all_lt_iff {after : Option UInt64} {position : UInt64} :
    after.all (· < position) = true ↔ nextOf after ≤ position.toNat := by
  cases after with
  | none => exact iff_of_true rfl (Nat.zero_le _)
  | some cursor => exact decide_eq_true_iff.trans UInt64.lt_iff_toNat_lt

theorem any_le_iff {after : Option UInt64} {position : UInt64} :
    after.any (position ≤ ·) = true ↔ position.toNat < nextOf after := by
  cases after with
  | none => exact iff_of_false Bool.false_ne_true (Nat.not_lt_zero _)
  | some cursor => exact (decide_eq_true_iff.trans UInt64.le_iff_toNat_le).trans Nat.lt_succ_iff.symm

theorem loadAll_ofLog {log : List (StoredEvent E)} (h : Lawful Continues log) (after : Option UInt64) (limit : Nat) :
    InMemory.loadAll (ofLog log) after limit = (log.drop (nextOf after)).take limit := by
  rw [InMemory.loadAll]
  congr 1
  change log.filter _ = _
  apply h.induction
  · rw [List.drop_nil, List.filter_nil]
  · intro log event _ hc ih
    have hlast := @all_lt_iff after event.metadata.globalPosition
    rw [hc.position] at hlast
    rw [List.filter_append, ih]
    by_cases hle : nextOf after ≤ log.length
    · rw [List.drop_append_of_le_length hle]
      congr 1
      exact List.filter_eq_self.mpr (List.forall_mem_singleton.mpr (hlast.mpr hle))
    · have hnone : [event].filter (fun event => after.all (· < event.metadata.globalPosition)) = [] :=
        List.filter_eq_nil_iff.mpr (List.forall_mem_singleton.mpr fun hall => hle (hlast.mp hall))
      rw [hnone, List.append_nil, List.drop_of_length_le (by omega), List.drop_of_length_le]
      rw [List.length_append, List.length_singleton]
      omega

/-- The invariant of a feed, over the log of its store and the number of events that were passed
when it started. -/
structure Delivers (start : Nat) (s : Feed E) (log : List (StoredEvent E)) : Prop where
  inner : s.store.inner = ofLog log
  lawful : Lawful Continues log
  behind : start ≤ s.subscription.passed
  within : s.subscription.passed ≤ log.length
  delivered : ∀ through, s.subscription.deliveredThrough = some through → through.toNat < log.length ∧
    ∀ (i : Nat) event, log[i]? = some event → s.subscription.passed ≤ i → i ≤ through.toNat → event ∈ s.returned
  covered : ∀ (i : Nat) event, log[i]? = some event → start ≤ i → i < s.subscription.passed → event ∈ s.returned
  ahead : ∀ event ∈ s.returned, ∃ i : Nat, log[i]? = some event ∧
    i < s.subscription.passed + s.subscription.batchSize

variable {start : Nat} {s t : Feed E} {log : List (StoredEvent E)}

theorem Delivers.poll_eq (h : Delivers start s log) :
    (poll s.store s.subscription).1 = (log.drop s.subscription.passed).take s.subscription.batchSize := by
  have hinner := h.inner
  rw [poll]
  cases hs : s.store with
  | memory store =>
      rw [hs] at hinner
      obtain rfl : store = ofLog log := hinner
      exact loadAll_ofLog h.lawful _ _
  | file store =>
      rw [hs] at hinner
      change InMemory.loadAll store.inner _ _ = _
      rw [show store.inner = ofLog log from hinner]
      exact loadAll_ofLog h.lawful _ _

theorem Delivers.mem_poll (h : Delivers start s log) {event : StoredEvent E} :
    event ∈ (poll s.store s.subscription).1 ↔ ∃ i : Nat, log[i]? = some event ∧ s.subscription.passed ≤ i ∧
      i < s.subscription.passed + s.subscription.batchSize := by
  rw [h.poll_eq, List.mem_iff_getElem?]
  constructor
  · intro hi
    obtain ⟨i, hi⟩ := hi
    rw [List.getElem?_take] at hi
    split at hi
    · rename_i hlt
      rw [List.getElem?_drop] at hi
      exact ⟨_, hi, Nat.le_add_right _ _, Nat.add_lt_add_left hlt _⟩
    · cases hi
  · intro hi
    obtain ⟨i, hi, hle, hlt⟩ := hi
    refine ⟨i - s.subscription.passed, ?_⟩
    rw [List.getElem?_take_of_lt (by omega), List.getElem?_drop, Nat.add_sub_cancel' hle]
    exact hi

theorem Delivers.polled_through (h : Delivers start s log) {through : UInt64}
    (ht : s.polled.subscription.deliveredThrough = some through) :
    through.toNat < log.length ∧ through.toNat < s.subscription.passed + s.subscription.batchSize := by
  obtain ⟨event, hevent, hposition⟩ := Option.map_eq_some_iff.mp ht
  obtain ⟨i, hi, -, hlt⟩ := h.mem_poll.mp (List.mem_of_getLast? hevent)
  have hp := (Lawful.wellFormed h.lawful).position i event hi
  rw [← hposition, hp]
  exact ⟨(List.getElem?_eq_some_iff.mp hi).1, hlt⟩

theorem Delivers.poll (h : Delivers start s log) : Delivers start s.polled log where
  inner := h.inner
  lawful := h.lawful
  behind := h.behind
  within := h.within
  delivered := fun through ht => by
    obtain ⟨hlt, hbatch⟩ := h.polled_through ht
    refine ⟨hlt, fun i event hi hle hthrough => List.mem_append_right _ ?_⟩
    exact h.mem_poll.mpr ⟨i, hi, hle, hthrough.trans_lt hbatch⟩
  covered := fun i event hi hstart hlt => List.mem_append_left _ (h.covered i event hi hstart hlt)
  ahead := fun event he => by
    obtain he | he := List.mem_append.mp he
    · exact h.ahead event he
    · obtain ⟨i, hi, -, hlt⟩ := h.mem_poll.mp he
      exact ⟨i, hi, hlt⟩

theorem appended_ofLog {store : EventStore E} (hl : Lawful Continues log) (hinner : store.inner = ofLog log)
    (path : Clients.AppendPath) (stream : StreamId) (expected : ExpectedVersion) (batch : List (NewEvent E)) :
    ∃ committed, Lawful Continues (log ++ committed) ∧
      (store.appended path stream expected batch).inner = ofLog (log ++ committed) := by
  cases store with
  | memory store =>
      obtain rfl : store = ofLog log := hinner
      change ∃ committed, _ ∧ (path.run stream expected batch (ofLog log)).2 = _
      rw [Clients.run_eq]
      exact after_append hl stream expected batch
  | file store =>
      change ∃ committed, _ ∧ (after (appendBy stream expected batch path store)).inner = _
      have hends := appendBy_ends hl hinner stream expected batch path
      cases hr : appendBy stream expected batch path store with
      | ok _ t =>
          obtain ⟨committed, u, hcommitted, -, rfl⟩ := hends.of_ok hr
          exact ⟨committed, lawful_append.mpr ⟨hl, hcommitted.grows⟩, rfl⟩
      | error e t =>
          obtain ⟨g, rfl, -⟩ := hends.of_error hr
          refine ⟨[], ?_, ?_⟩
          · rwa [List.append_nil]
          · rw [List.append_nil]
            exact hinner

theorem Delivers.append (h : Delivers start s log) {committed : List (StoredEvent E)}
    (hl : Lawful Continues (log ++ committed)) {store : EventStore E}
    (hinner : store.inner = ofLog (log ++ committed)) :
    Delivers start { s with store := store } (log ++ committed) := by
  have hbefore : ∀ {i : Nat} {event : StoredEvent E}, (log ++ committed)[i]? = some event → i < log.length →
      log[i]? = some event := by
    intro i event hi hlt
    rwa [List.getElem?_append_left hlt] at hi
  refine ⟨hinner, hl, h.behind, ?_, fun through ht => ?_, fun i event hi hstart hlt => ?_, fun event he => ?_⟩
  · rw [List.length_append]
    exact h.within.trans (Nat.le_add_right _ _)
  · obtain ⟨hlt, hreturned⟩ := h.delivered through ht
    refine ⟨?_, fun i event hi hle hthrough => hreturned i event (hbefore hi (hthrough.trans_lt hlt)) hle hthrough⟩
    rw [List.length_append]
    exact Nat.lt_add_right _ hlt
  · exact h.covered i event (hbefore hi (hlt.trans_le h.within)) hstart hlt
  · obtain ⟨i, hi, hlt⟩ := h.ahead event he
    refine ⟨i, ?_, hlt⟩
    rw [List.getElem?_append_left (List.getElem?_eq_some_iff.mp hi).1]
    exact hi

theorem acknowledge_ends (position : UInt64) (subscription : CatchUpSubscription) :
    Ends (fun _ t => (∃ through, subscription.deliveredThrough = some through ∧ position.toNat ≤ through.toNat) ∧
        subscription.passed ≤ position.toNat + 1 ∧ t = { subscription with
          checkpoint := { subscription.checkpoint with globalPosition := some position }, deliveredThrough := none })
      (fun _ t => t = subscription) (acknowledge position subscription) := by
  rw [acknowledge, bind_apply, get_apply]
  cases hd : subscription.deliveredThrough with
  | none =>
      simp only [hd]
      rfl
  | some delivered =>
      simp only [hd]
      by_cases hout : delivered < position ∨ subscription.checkpoint.globalPosition.any (position < ·) = true
      · have herror : throwIf (delivered < position ∨ subscription.checkpoint.globalPosition.any (position < ·) = true)
            (.invalidValue "subscription.acknowledge" "position is outside the delivered range") =
            .error (.invalidValue "subscription.acknowledge" "position is outside the delivered range") := if_pos hout
        rw [herror]
        rfl
      · rw [throwIf_of_not hout]
        obtain ⟨hle, hahead⟩ := not_or.mp hout
        refine ⟨⟨delivered, rfl, UInt64.le_iff_toNat_le.mp (UInt64.not_lt.mp hle)⟩, ?_, rfl⟩
        rw [CatchUpSubscription.passed]
        cases hc : subscription.checkpoint.globalPosition with
        | none => exact Nat.zero_le _
        | some current =>
            rw [hc] at hahead
            have hcurrent : ¬ position < current := fun hlt => hahead (decide_eq_true hlt)
            exact Nat.succ_le_succ (UInt64.le_iff_toNat_le.mp (UInt64.not_lt.mp hcurrent))

structure Advances (s t : Feed E) : Prop where
  passed : s.subscription.passed ≤ t.subscription.passed
  batchSize : t.subscription.batchSize = s.subscription.batchSize

theorem Delivers.acknowledge (h : Delivers start s log) (position : UInt64) :
    Delivers start { s with subscription := after (acknowledge position s.subscription) } log ∧
      Advances s { s with subscription := after (Subscription.acknowledge position s.subscription) } := by
  have hends := acknowledge_ends position s.subscription
  cases hr : Subscription.acknowledge position s.subscription with
  | error e t =>
      obtain rfl := hends.of_error hr
      exact ⟨h, Nat.le_refl _, rfl⟩
  | ok _ t =>
      obtain ⟨⟨through, hthrough, hle⟩, hahead, rfl⟩ := hends.of_ok hr
      obtain ⟨hlt, hreturned⟩ := h.delivered through hthrough
      refine ⟨⟨h.inner, h.lawful, h.behind.trans hahead, Nat.succ_le_of_lt (hle.trans_lt hlt), ?_, ?_, ?_⟩, hahead, rfl⟩
      · intro other hnone
        cases hnone
      · intro i event hi hstart hpassed
        by_cases hbefore : i < s.subscription.passed
        · exact h.covered i event hi hstart hbefore
        · exact hreturned i event hi (not_lt.mp hbefore) ((Nat.le_of_lt_succ hpassed).trans hle)
      · intro event he
        obtain ⟨i, hi, hbatch⟩ := h.ahead event he
        exact ⟨i, hi, hbatch.trans_le (Nat.add_le_add_right hahead _)⟩

theorem Delivers.step (h : Delivers start s log) (hs : Step s t) : (∃ log, Delivers start t log) ∧ Advances s t := by
  cases hs with
  | append path stream expected batch =>
      obtain ⟨committed, hl, hinner⟩ := appended_ofLog h.lawful h.inner path stream expected batch
      exact ⟨⟨_, h.append hl hinner⟩, Nat.le_refl _, rfl⟩
  | poll => exact ⟨⟨_, h.poll⟩, Nat.le_refl _, rfl⟩
  | acknowledge position => exact ⟨⟨_, (h.acknowledge position).1⟩, (h.acknowledge position).2⟩

theorem Delivers.run (h : Delivers start s log) (hs : ReflTransGen Step s t) :
    (∃ log, Delivers start t log) ∧ Advances s t := by
  induction hs with
  | refl => exact ⟨⟨log, h⟩, Nat.le_refl _, rfl⟩
  | tail _ hstep ih =>
      obtain ⟨⟨log, h⟩, hbefore⟩ := ih
      obtain ⟨hnext, hstep⟩ := h.step hstep
      exact ⟨hnext, hbefore.passed.trans hstep.passed, hstep.batchSize.trans hbefore.batchSize⟩

/-- A store of the crate: one that appends have led to, or one that has been opened. -/
inductive Served : EventStore E → Prop
  | memory {store : InMemoryStore E} (h : Reachable store) : Served (.memory store)
  | file {codec : Codec (StoredEvent E)} {options : FileStoreOptions} {file g : Files.File} {store : FileEventStore E}
      (h : openLog codec options file = .ok store g) : Served (.file store)

theorem Served.ofLog {store : EventStore E} (h : Served store) :
    ∃ log, Lawful Continues log ∧ store.inner = EventLog.ofLog log := by
  cases h with
  | memory h => exact reachable_iff.mp h
  | file h =>
      obtain ⟨-, batches, _, hj⟩ := Crashes.openLog_journaled h
      exact ⟨batches.flatten, hj.log, hj.inner⟩

theorem delivers_start {store : EventStore E} (hl : Lawful Continues log) (hinner : store.inner = ofLog log)
    {subscription : CatchUpSubscription} (hnone : subscription.deliveredThrough = none)
    (hwithin : subscription.passed ≤ log.length) : Delivers subscription.passed ⟨store, subscription, []⟩ log where
  inner := hinner
  lawful := hl
  behind := Nat.le_refl _
  within := hwithin
  delivered := fun through hthrough => by
    rw [hnone] at hthrough
    cases hthrough
  covered := fun i event _ hle hlt => absurd hlt hle.not_gt
  ahead := fun event he => absurd he List.not_mem_nil

/-- However appends, polls and acknowledgements follow each other: the checkpoint does not move
backwards, it only passes events that a poll has returned, a poll returns the events behind it, an event
that has been returned is returned again until it is passed, and a rejected acknowledgement changes
nothing. -/
theorem delivery_without_gaps {store : EventStore E} (hstore : Served store) {checkpoint : SubscriptionCheckpoint}
    {batchSize : Nat} {subscription : CatchUpSubscription}
    (hnew : CatchUpSubscription.new checkpoint batchSize = .ok subscription)
    (hwithin : nextOf checkpoint.globalPosition ≤ store.inner.events.length) (s : Feed E)
    (hs : ReflTransGen Step ⟨store, subscription, []⟩ s) :
    (∀ t, ReflTransGen Step s t → s.subscription.passed ≤ t.subscription.passed) ∧
    (∀ event ∈ s.store.inner.events, checkpoint.globalPosition.all (· < event.metadata.globalPosition) = true →
      s.subscription.checkpoint.globalPosition.any (event.metadata.globalPosition ≤ ·) = true →
      event ∈ s.returned) ∧
    (∀ (i : Nat) event, s.store.inner.events[i]? = some event → event.metadata.globalPosition.toNat = i) ∧
    (poll s.store s.subscription).1 = (s.store.inner.events.drop s.subscription.passed).take batchSize ∧
    (∀ event ∈ s.returned, s.subscription.checkpoint.globalPosition.all (· < event.metadata.globalPosition) = true →
      event ∈ (poll s.store s.subscription).1) ∧
    ∀ position e t, acknowledge position s.subscription = .error e t → t = s.subscription := by
  obtain ⟨_, hpositive, hsubscription⟩ := bind_eq_ok.mp hnew
  obtain rfl := Except.ok.inj hsubscription
  obtain ⟨log₀, hl, hinner⟩ := hstore.ofLog
  rw [hinner] at hwithin
  have hstart := @delivers_start _ log₀ store hl hinner ⟨checkpoint, none, batchSize⟩ rfl hwithin
  obtain ⟨⟨log, h⟩, hadvances⟩ := hstart.run hs
  have hevents : s.store.inner.events = log := by rw [h.inner, ofLog]
  have hposition := (Lawful.wellFormed h.lawful).position
  have hpoll := h.poll_eq
  rw [hadvances.batchSize] at hpoll
  refine ⟨fun t ht => (h.run ht).2.passed, fun event he hafter hbefore => ?_, fun i event hi => ?_, ?_,
    fun event he hafter => ?_, fun position e t he => ?_⟩
  · rw [hevents] at he
    obtain ⟨i, hi⟩ := List.mem_iff_getElem?.mp he
    rw [all_lt_iff, hposition i event hi] at hafter
    rw [any_le_iff, hposition i event hi] at hbefore
    exact h.covered i event hi hafter hbefore
  · rw [hevents] at hi
    exact hposition i event hi
  · rw [hpoll, hevents]
  · obtain ⟨i, hi, hlt⟩ := h.ahead event he
    rw [all_lt_iff, hposition i event hi] at hafter
    exact h.mem_poll.mpr ⟨i, hi, hafter, hlt⟩
  · exact (acknowledge_ends position s.subscription).of_error he

def retractedStore : InMemoryStore MemoryEvent := ofLog Common.retractedOnce

def twoAtATime : CatchUpSubscription := ⟨⟨none⟩, none, 2⟩

/-- Two polls, the first of which is acknowledged in part. -/
def partlyAcknowledged : Feed MemoryEvent :=
  let first := (⟨.memory retractedStore, twoAtATime, []⟩ : Feed MemoryEvent).polled
  ({ first with subscription := after (acknowledge 0 first.subscription) } : Feed MemoryEvent).polled

theorem delivery_without_gaps_partly :
    partlyAcknowledged.subscription.passed = 1 ∧
      partlyAcknowledged.returned.map (·.metadata.globalPosition) = [0, 1, 1, 2] ∧
      (poll partlyAcknowledged.store partlyAcknowledged.subscription).1 =
        (partlyAcknowledged.store.inner.events.drop partlyAcknowledged.subscription.passed).take 2 := by
  have hstore : Served (.memory retractedStore) := by
    refine .memory (reachable_iff.mpr ⟨Common.retractedOnce, ?_, rfl⟩)
    obtain ⟨t, ht⟩ : ∃ t, restore Common.retractedOnce = .ok t := exists_ok_of_isOk (by decide +kernel)
    exact (restore_eq_ok.mp ht).1
  have hrun : ReflTransGen Step ⟨.memory retractedStore, twoAtATime, []⟩ partlyAcknowledged :=
    ((ReflTransGen.single Step.poll).tail (Step.acknowledge 0)).tail Step.poll
  have h := @delivery_without_gaps _ _ hstore ⟨none⟩ 2 twoAtATime rfl (Nat.zero_le _) partlyAcknowledged hrun
  exact ⟨by decide +kernel, by decide +kernel, h.2.2.2.1⟩

end WeavatrixMemory.Store.Subscription
