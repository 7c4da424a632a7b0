import WeavatrixMemory.Context.Dependence
import WeavatrixMemory.Projection.Semantics
import WeavatrixMemory.Store.Tracking

namespace WeavatrixMemory.Context.Interleaving

open Error Identity Domain Logs Bitemporal Projection.State Projection.Memory Projection.Invariant Projection.Replay
open Projection.Semantics Compiler Neighborhood Bundles Dependence GraphProjection Store.EventLog Store.Tracking

/-- The log as the streams said it. -/
def said (log : List (StoredEvent MemoryEvent)) :
    List (StreamId × Entry EntityId MemoryNode MemoryFact FactId Timestamp) :=
  log.map fun event => (event.metadata.streamId, entryOf event)

theorem ledgerOf_said (log : List (StoredEvent MemoryEvent)) : ledgerOf (said log) = ledger log := List.map_map

variable {seeds : Seeds} {log log' : List (StoredEvent MemoryEvent)} {p : MemoryProjection}

theorem lawful_of_replay (h : replay (memory seeds) log = .ok p ∨ replayOwned (memory seeds) log = .ok p) :
    Lawful Continues log := by
  obtain h | h := h
  · obtain ⟨⟨q, cursor⟩, hr, -⟩ := Error.map_eq_ok.mp h
    exact (replayTracked_lawful hr).1
  · obtain ⟨⟨q, cursor⟩, hr, -⟩ := Error.map_eq_ok.mp h
    exact (applyLoop_lawful lawful_nil Store.Validators.tracks_nil hr).1

theorem nextOf_last (h : Lawful Continues log) :
    nextOf (log.getLast?.map fun event => event.metadata.globalPosition) = log.length := by
  cases hlast : log.getLast? with
  | none =>
      rw [List.getLast?_eq_none_iff.mp hlast]
      rfl
  | some event =>
      have hne : log ≠ [] := by
        rintro rfl
        cases hlast
      rw [List.getLast?_eq_getElem?] at hlast
      rw [Option.map_some, nextOf, (lawful_continues h hlast).position, List.length_take, min_eq_left (Nat.sub_le _ _)]
      exact Nat.succ_pred_eq_of_pos (List.length_pos_iff.mpr hne)

structure Same (p q : MemoryProjection) : Prop where
  left : Valid p
  right : Valid q
  facts : p.facts.Perm q.facts
  viewNodes : ∀ clock, (viewRef p clock).nodes.Perm (viewRef q clock).nodes
  viewFacts : ∀ clock, (viewRef p clock).facts.Perm (viewRef q clock).facts
  position : p.lastGlobalPosition = q.lastGlobalPosition

theorem reordered_of_streams (hstreams : Interleaved Prod.fst (said log) (said log')) (hwrites : WritesApart (said log))
    (hwithdrawals : WithdrawalsApart (said log)) : Reordered (ledger log) (ledger log') := by
  rw [← ledgerOf_said, ← ledgerOf_said]
  exact reordered_of_interleaved hstreams hwrites hwithdrawals

theorem same_of_reordered {seeds' : Seeds} {q : MemoryProjection}
    (hp : replay (memory seeds) log = .ok p ∨ replayOwned (memory seeds) log = .ok p)
    (hq : replay (memory seeds') log' = .ok q ∨ replayOwned (memory seeds') log' = .ok q)
    (h : Reordered (ledger log) (ledger log')) : Same p q := by
  have hpreads := reads_of_replay hp
  have hqreads := reads_of_replay hq
  have hstate (clock : ProjectionClock) := h.stateAt_perm (r := readFact) (Projection.Semantics.clockOf clock)
  have hlength : log.length = log'.length := by simpa only [ledger, List.length_map] using h.perm.length_eq
  refine ⟨hpreads.holds.valid, hqreads.holds.valid, ?_, fun clock => ?_, fun clock => ?_, nextOf_injective ?_⟩
  · rw [hpreads.holds.facts, hqreads.holds.facts]
    exact h.facts_perm
  · rw [show viewRef p clock = _ from hpreads.view_eq clock, show viewRef q clock = _ from hqreads.view_eq clock]
    exact (hstate clock).1
  · rw [show viewRef p clock = _ from hpreads.view_eq clock, show viewRef q clock = _ from hqreads.view_eq clock]
    exact (hstate clock).2
  · rw [hpreads.holds.position, hqreads.holds.position, nextOf_last (lawful_of_replay hp),
      nextOf_last (lawful_of_replay hq), hlength]

/-- Streams of which no two are about one entity or one fact leave the same, in whatever order they have come. -/
theorem same_of_streams {seeds' : Seeds} {q : MemoryProjection}
    (hp : replay (memory seeds) log = .ok p ∨ replayOwned (memory seeds) log = .ok p)
    (hq : replay (memory seeds') log' = .ok q ∨ replayOwned (memory seeds') log' = .ok q)
    (hstreams : Interleaved Prod.fst (said log) (said log')) (hwrites : WritesApart (said log))
    (hwithdrawals : WithdrawalsApart (said log)) : Same p q :=
  same_of_reordered hp hq (reordered_of_streams hstreams hwrites hwithdrawals)

/-- In whatever order concurrent streams have been appended, the memory that is replayed from them is the same,
and so is every context compiled of it. -/
theorem streams_converge (seeds seeds' : Seeds) (log log' : List (StoredEvent MemoryEvent)) (p q : MemoryProjection)
    (hp : replay (memory seeds) log = .ok p ∨ replayOwned (memory seeds) log = .ok p)
    (hq : replay (memory seeds') log' = .ok q ∨ replayOwned (memory seeds') log' = .ok q)
    (hstreams : Interleaved Prod.fst (said log) (said log')) (hwrites : WritesApart (said log))
    (hwithdrawals : WithdrawalsApart (said log)) :
    (∀ clock, (viewRef p clock).nodes.Perm (viewRef q clock).nodes ∧
      (viewRef p clock).facts.Perm (viewRef q clock).facts) ∧
    (∀ id knownAt, visibleNode p id knownAt = visibleNode q id knownAt) ∧
    ∀ (crate : GraphCrate) estimator request,
      compile (projectGraph crate) estimator p request = compile (projectGraph crate) estimator q request := by
  have hsame := same_of_streams hp hq hstreams hwrites hwithdrawals
  refine ⟨fun clock => ⟨hsame.viewNodes clock, hsame.viewFacts clock⟩, fun id knownAt => ?_,
    fun crate estimator request => ?_⟩
  · have hvalue := (reordered_of_streams hstreams hwrites hwithdrawals).valueAt_eq knownAt id
    rw [(reads_of_replay hp).visibleNode_eq, (reads_of_replay hq).visibleNode_eq, hvalue]
  · exact SameView.compile_eq ⟨hsame.left, hsame.right, hsame.viewNodes _, hsame.viewFacts _⟩ hsame.position _ estimator

theorem swapped_interleaved : Interleaved Prod.fst (said taskFirst) (said fileFirst) := by
  intro s
  by_cases hs : Common.stream = s
  · subst hs
    rfl
  · by_cases he : elsewhere = s
    · subst he
      rfl
    · simp [said, taskFirst, fileFirst, placed, hs, he]

theorem swapped_writes : WritesApart (said taskFirst) := by
  intro a ha b hb write write' hw hw' hentity _
  rw [said, taskFirst] at ha hb
  simp only [List.map_cons, List.map_nil, List.mem_cons, List.not_mem_nil, or_false] at ha hb
  rcases ha with rfl | rfl | rfl <;> rcases hb with rfl | rfl | rfl <;> cases hw <;> cases hw'
  · rfl
  · exact absurd hentity (by decide)
  · exact absurd hentity (by decide)
  · rfl

theorem swapped_withdrawals : WithdrawalsApart (said taskFirst) := by
  intro a ha b hb id hwithdrawal
  rw [said, taskFirst] at ha
  simp only [List.map_cons, List.map_nil, List.mem_cons, List.not_mem_nil, or_false] at ha
  rcases ha with rfl | rfl | rfl <;> cases hwithdrawal

theorem exists_swapped : ∃ p q, replay (memory ⟨1, 2⟩) taskFirst = .ok p ∧
    replay (memory ⟨3, 4⟩) fileFirst = .ok q ∧ p.nodes ≠ q.nodes := by
  have hnodes : ((replay (memory ⟨1, 2⟩) taskFirst).map MemoryProjection.nodes).toOption ≠
      ((replay (memory ⟨3, 4⟩) fileFirst).map MemoryProjection.nodes).toOption := by decide +kernel
  obtain ⟨p, hp⟩ := @exists_ok_of_isOk _ (replay (memory ⟨1, 2⟩) taskFirst) (by decide +kernel)
  obtain ⟨q, hq⟩ := @exists_ok_of_isOk _ (replay (memory ⟨3, 4⟩) fileFirst) (by decide +kernel)
  rw [hp, hq] at hnodes
  exact ⟨p, q, hp, hq, fun h => hnodes (congrArg some h)⟩

theorem streams_converge_swapped : ∃ p q, replay (memory ⟨1, 2⟩) taskFirst = .ok p ∧
    replay (memory ⟨3, 4⟩) fileFirst = .ok q ∧ p.nodes ≠ q.nodes ∧
    ∀ clock, (viewRef p clock).nodes.Perm (viewRef q clock).nodes ∧
      (viewRef p clock).facts.Perm (viewRef q clock).facts := by
  obtain ⟨p, q, hp, hq, hne⟩ := exists_swapped
  exact ⟨p, q, hp, hq, hne, (streams_converge ⟨1, 2⟩ ⟨3, 4⟩ taskFirst fileFirst p q (.inl hp) (.inl hq)
    swapped_interleaved swapped_writes swapped_withdrawals).1⟩

end WeavatrixMemory.Context.Interleaving
