import WeavatrixMemory.Snapshot.Following
import WeavatrixMemory.Store.Subscription

namespace WeavatrixMemory.Snapshot.Consuming

open Error Identity Domain Logs Relation Projection.State Projection.Memory Projection.Invariant Projection.Replay
open Resume
open Store.EventLog Store.Validators Store.Tracking Store.Subscription Generations Stores Following

/-- A consumer of a feed, the memory that it has made of what was delivered, and the snapshots that it has kept. -/
structure Consumer where
  feed : Feed MemoryEvent
  snapshot : ProjectionSnapshot MemoryProjection
  saved : List (ProjectionSnapshot MemoryProjection)

/-- Appends, polls and acknowledgements go on in any order. The consumer resumes its memory with whatever it has
been handed at some time, keeps snapshots, and starts again from one of them. -/
inductive Turn : Consumer → Consumer → Prop
  | feed {c : Consumer} {feed : Feed MemoryEvent} (h : Step c.feed feed) : Turn c { c with feed := feed }
  | resumed {c : Consumer} {seeds : Seeds} {batch : List (StoredEvent MemoryEvent)} {p : MemoryProjection}
      {cursor : ReplayCursor} (hbatch : ∀ event ∈ batch, event ∈ c.feed.returned)
      (h : resume (memory seeds) c.snapshot batch = .ok (p, cursor)) : Turn c { c with snapshot := ⟨cursor, p⟩ }
  | saved {c : Consumer} : Turn c { c with saved := c.snapshot :: c.saved }
  | restarted {c : Consumer} {kept loaded : ProjectionSnapshot MemoryProjection} {batchSize : Nat}
      {subscription : CatchUpSubscription} (hkept : kept ∈ c.saved) (hsame : SameSnapshot SameData loaded kept)
      (hvalid : Valid loaded.projection)
      (hnew : CatchUpSubscription.new ⟨loaded.cursor.globalPosition⟩ batchSize = .ok subscription) :
      Turn c { c with feed := { c.feed with subscription := subscription }, snapshot := loaded }

/-- Whatever the consumer has is a replay of a beginning of the log. -/
structure Sound (c : Consumer) (log : List (StoredEvent MemoryEvent)) : Prop where
  inner : c.feed.store.inner = ofLog log
  lawful : Lawful Continues log
  delivered : ∀ event ∈ c.feed.returned, event ∈ log
  snapshot : ∃ n ≤ log.length, Follows (log.take n) c.snapshot
  saved : ∀ s ∈ c.saved, ∃ n ≤ log.length, Follows (log.take n) s

variable {c d : Consumer} {log : List (StoredEvent MemoryEvent)}

theorem loadAll_of_inner {store : EventStore MemoryEvent} (hl : Lawful Continues log) (hinner : store.inner = ofLog log)
    (after : Option UInt64) (limit : Nat) : store.loadAll after limit = (log.drop (nextOf after)).take limit := by
  rw [← loadAll_ofLog hl after limit, ← hinner]
  cases store <;> rfl

theorem follows_longer {s : ProjectionSnapshot MemoryProjection} (h : ∃ n ≤ log.length, Follows (log.take n) s)
    (more : List (StoredEvent MemoryEvent)) : ∃ n ≤ (log ++ more).length, Follows ((log ++ more).take n) s := by
  obtain ⟨n, hn, hs⟩ := h
  refine ⟨n, hn.trans (by rw [List.length_append]; exact Nat.le_add_right _ _), ?_⟩
  rwa [List.take_append_of_le_length hn]

theorem follows_resumed {seeds : Seeds} {s : ProjectionSnapshot MemoryProjection}
    {batch : List (StoredEvent MemoryEvent)} {p : MemoryProjection} {cursor : ReplayCursor} (hl : Lawful Continues log)
    (hs : ∃ n ≤ log.length, Follows (log.take n) s) (hbatch : ∀ event ∈ batch, event ∈ log)
    (h : resume (memory seeds) s batch = .ok (p, cursor)) : ∃ n ≤ log.length, Follows (log.take n) ⟨cursor, p⟩ := by
  obtain ⟨n, hn, hs⟩ := hs
  obtain ⟨hle, heq, -⟩ := resume_next hl hn hs.lawful.2 hbatch h
  have hlonger : log.take n ++ batch = log.take (n + batch.length) := by rw [List.take_add, ← heq]
  refine ⟨n + batch.length, hle, ?_⟩
  rw [← hlonger]
  exact hs.resumed (by rw [hlonger]; exact lawful_take hl _) h

theorem Sound.turn (h : Sound c log) (hs : Turn c d) : ∃ log, Sound d log := by
  cases hs with
  | feed hfeed =>
      cases hfeed with
      | append path stream expected batch =>
          obtain ⟨committed, hl, hinner⟩ := appended_ofLog h.lawful h.inner path stream expected batch
          exact ⟨log ++ committed, hinner, hl, fun event he => List.mem_append_left _ (h.delivered event he),
            follows_longer h.snapshot _, fun s hs => follows_longer (h.saved s hs) _⟩
      | poll =>
          refine ⟨log, h.inner, h.lawful, fun event he => ?_, h.snapshot, h.saved⟩
          obtain he | he := List.mem_append.mp he
          · exact h.delivered event he
          · change event ∈ c.feed.store.loadAll _ _ at he
            rw [loadAll_of_inner h.lawful h.inner] at he
            exact List.mem_of_mem_drop (List.mem_of_mem_take he)
      | acknowledge => exact ⟨log, h.inner, h.lawful, h.delivered, h.snapshot, h.saved⟩
  | resumed hbatch hr =>
      exact ⟨log, h.inner, h.lawful, h.delivered,
        follows_resumed h.lawful h.snapshot (fun event he => h.delivered event (hbatch event he)) hr, h.saved⟩
  | saved => exact ⟨log, h.inner, h.lawful, h.delivered, h.snapshot, List.forall_mem_cons.mpr ⟨h.snapshot, h.saved⟩⟩
  | restarted hkept hsame hvalid =>
      obtain ⟨n, hn, hfollows⟩ := h.saved _ hkept
      exact ⟨log, h.inner, h.lawful, h.delivered, ⟨n, hn, hfollows.loaded hsame hvalid⟩, h.saved⟩

theorem Sound.run (h : Sound c log) (hs : ReflTransGen Turn c d) : ∃ log, Sound d log := by
  induction hs with
  | refl => exact ⟨log, h⟩
  | tail _ hturn ih =>
      obtain ⟨log, h⟩ := ih
      exact h.turn hturn

/-- Delivery at least once makes a memory that has each event once: whatever is delivered again, skipped or
forgotten, the consumer has replayed a beginning of the log. Where its checkpoint is at its memory, the next batch
takes it on as far as the log can be replayed. -/
theorem consumer_replays_once {store : EventStore MemoryEvent} (hstore : Served store) (seeds : Seeds)
    (subscription : CatchUpSubscription) (c : Consumer)
    (hc : ReflTransGen Turn ⟨⟨store, subscription, []⟩, ⟨.default, .default seeds⟩, []⟩ c) :
    ∃ n ≤ c.feed.store.inner.events.length, Follows (c.feed.store.inner.events.take n) c.snapshot ∧
      (c.feed.subscription.checkpoint.globalPosition = c.snapshot.cursor.globalPosition →
        ∀ seeds p cursor, replayTracked (memory seeds)
            (c.feed.store.inner.events.take (n + c.feed.subscription.batchSize)) = .ok (p, cursor) →
          ∃ q, resume (memory seeds) c.snapshot (poll c.feed.store c.feed.subscription).1 = .ok (q, cursor) ∧
            Agree q p) := by
  obtain ⟨log, hl, hinner⟩ := hstore.ofLog
  have hstart : Sound ⟨⟨store, subscription, []⟩, ⟨.default, .default seeds⟩, []⟩ log :=
    ⟨hinner, hl, fun _ he => absurd he List.not_mem_nil, ⟨0, Nat.zero_le _, follows_default seeds⟩,
      fun _ hs => absurd hs List.not_mem_nil⟩
  obtain ⟨log, h⟩ := hstart.run hc
  have hevents : c.feed.store.inner.events = log := by rw [h.inner]; rfl
  obtain ⟨n, hn, hfollows⟩ := h.snapshot
  rw [hevents]
  refine ⟨n, hn, hfollows, fun hcheckpoint seeds p cursor hp => ?_⟩
  have hnext : nextOf c.feed.subscription.checkpoint.globalPosition = n := by
    rw [hcheckpoint, hfollows.lawful.2.position, List.length_take, min_eq_left hn]
  rw [poll, loadAll_of_inner h.lawful h.inner, hnext]
  rw [List.take_add] at hp
  obtain ⟨q, hq, halike⟩ := hfollows.replayed hp seeds
  exact ⟨q, hq, halike.agree⟩

/-- The second event is delivered twice, and taken in once. -/
theorem consumer_replays_once_redelivered : ∃ c : Consumer, c.feed = partlyAcknowledged ∧
    c.snapshot.cursor.globalPosition = some 1 ∧
    (resume (memory ⟨1, 2⟩) c.snapshot (partlyAcknowledged.returned.drop 2)).isOk = false ∧
    ∃ n ≤ Common.retractedOnce.length, Follows (Common.retractedOnce.take n) c.snapshot := by
  have hstore : Served (.memory retractedStore) := by
    refine .memory (reachable_iff.mpr ⟨Common.retractedOnce, ?_, rfl⟩)
    obtain ⟨t, ht⟩ : ∃ t, Store.InMemory.restore Common.retractedOnce = .ok t := exists_ok_of_isOk (by decide +kernel)
    exact (restore_eq_ok.mp ht).1
  have hcheck : ((resume (memory ⟨1, 2⟩) ⟨.default, .default ⟨1, 2⟩⟩ (partlyAcknowledged.returned.take 2)).map
      fun r => decide (r.2.globalPosition = some 1 ∧
        (resume (memory ⟨1, 2⟩) ⟨r.2, r.1⟩ (partlyAcknowledged.returned.drop 2)).isOk = false)).toOption =
          some true := by
    decide +kernel
  cases hr : resume (memory ⟨1, 2⟩) ⟨.default, .default ⟨1, 2⟩⟩ (partlyAcknowledged.returned.take 2) with
  | error e =>
      rw [hr] at hcheck
      cases hcheck
  | ok r =>
      obtain ⟨p, cursor⟩ := r
      rw [hr] at hcheck
      obtain ⟨hposition, hrejected⟩ := of_decide_eq_true (Option.some.inj hcheck)
      have hpolled : ReflTransGen Turn ⟨⟨.memory retractedStore, twoAtATime, []⟩, ⟨.default, .default ⟨1, 2⟩⟩, []⟩
          ⟨partlyAcknowledged, ⟨.default, .default ⟨1, 2⟩⟩, []⟩ :=
        ((ReflTransGen.single (Turn.feed .poll)).tail (.feed (.acknowledge 0))).tail (.feed .poll)
      have hrun := hpolled.tail (.resumed (fun event he => List.mem_of_mem_take he) hr)
      obtain ⟨n, hn, hfollows, -⟩ := consumer_replays_once hstore ⟨1, 2⟩ twoAtATime _ hrun
      exact ⟨_, rfl, hposition, hrejected, n, hn, hfollows⟩

end WeavatrixMemory.Snapshot.Consuming
