import WeavatrixMemory.Context.Interleaving
import WeavatrixMemory.Extraction.Ingesting

namespace WeavatrixMemory.Extraction.Replicas

open Error Identity Domain Outcome Bitemporal Key Model Linker Engine Candidates Linking Validity Plans Provenance
open Committing Ingesting
open Catalog (Admissible Catalogued byId_isSome catalogEntity exists_fromView fromView_catalogued)
open Projection.State Projection.Memory Projection.Invariant Projection.Replay Projection.Semantics Pairings
open Context.Dependence Context.Interleaving Store.InMemory Store.EventLog Store.Commit

variable {unicode : Unicode} {nodes others : List MemoryNode} {linker linker' : EntityLinker}
  {mention : ExtractedEntity} {input : ExtractionInput} {policy : LinkPolicy}

theorem linkStableId_perm (hc : Catalogued unicode nodes linker) (hc' : Catalogued unicode others linker')
    (hperm : nodes.Perm others) (id : EntityId) :
    linkStableId unicode linker' mention id = linkStableId unicode linker mention id := by
  rw [linkStableId, linkStableId]
  cases hi : linker.byId id with
  | none =>
      have hnone : linker'.byId id = none := by
        rw [← Option.not_isSome_iff_eq_none, byId_isSome hc', ← (hperm.map (·.id)).mem_iff, ← byId_isSome hc, hi]
        exact Bool.false_ne_true
      rw [hnone]
  | some i =>
      obtain ⟨node, hn, hid⟩ := (hc.byId id i).mp hi
      obtain ⟨j, hj⟩ := List.mem_iff_getElem?.mp (hperm.mem_iff.mp (List.mem_of_getElem? hn))
      rw [(hc'.byId id j).mpr ⟨node, hj, hid⟩]
      simp only [getAt_nodes hc hn, getAt_nodes hc' hj]

theorem link_perm (hc : Catalogued unicode nodes linker) (hc' : Catalogued unicode others linker')
    (hperm : nodes.Perm others) (hdistinct : (nodes.map (·.id)).Nodup) (mention : ExtractedEntity) :
    link unicode linker' mention input policy = link unicode linker mention input policy := by
  rw [link, link]
  cases hstable : mention.stableId with
  | some id => simp only [linkStableId_perm hc hc' hperm]
  | none =>
      obtain ⟨candidates, hcollect, hranked⟩ := collectCandidates_ranked hc mention input
      obtain ⟨candidates', hcollect', hranked'⟩ := collectCandidates_ranked hc' mention input
      have hsame := hranked'.congr (offers_reordered hperm (List.Perm.refl mention.aliases.items)
        (List.Perm.refl mention.hints.items))
      obtain rfl := Ranked.unique hranked hsame fun id score score' method method' h h' =>
        method_of_offers hdistinct h h'
      simp only [hcollect, hcollect', ok_bind]
      rw [← resolveCandidates_reordered hc hc' hperm mention.aliases mention.hints]

theorem linkEntities_perm (hc : Catalogued unicode nodes linker) (hc' : Catalogued unicode others linker')
    (hperm : nodes.Perm others) (hdistinct : (nodes.map (·.id)).Nodup) (entities : List ExtractedEntity) :
    linkEntities unicode linker' input policy entities = linkEntities unicode linker input policy entities := by
  induction entities with
  | nil => rfl
  | cons entity rest ih => rw [linkEntities, linkEntities, link_perm hc hc' hperm hdistinct, ih]

/-- A plan reads nothing of a view but the nodes that are in it. -/
theorem plan_perm (policy : LinkPolicy) (provider : ExtractionProvider) (input : ExtractionInput)
    {shown other : MemoryView} (hperm : shown.nodes.Perm other.nodes)
    (h : ∃ linker, fromView unicode shown = .ok linker) :
    plan unicode policy provider input other = plan unicode policy provider input shown := by
  obtain ⟨linker, hlinker⟩ := h
  have hadmissible := exists_fromView.mp ⟨linker, hlinker⟩
  obtain ⟨linker', hlinker'⟩ := exists_fromView.mpr (Admissible.perm hadmissible hperm)
  have hlinks := @linkEntities_perm _ _ _ _ _ input policy (fromView_catalogued hlinker)
    (fromView_catalogued hlinker') hperm hadmissible.distinct
  rw [plan, plan, hlinker, hlinker']
  simp only [ok_bind, planWithLinker, buildPlan, hlinks]

def entryOfNew (event : NewEvent MemoryEvent) : Entry EntityId MemoryNode MemoryFact FactId Timestamp :=
  match event.payload with
  | .nodeUpserted node => .wrote node.id node event.recordedAt
  | .factRecorded fact => .asserted fact
  | .factRetracted factId validUntil _ => .withdrew factId validUntil event.recordedAt

theorem ledger_committed {log committed : List (StoredEvent MemoryEvent)} {stream : StreamId}
    {batch : List (NewEvent MemoryEvent)} (h : Committable log stream batch committed) :
    ledger committed = batch.map entryOfNew := by
  rw [← h.proposed, List.map_map]
  rfl

/-- In whatever order concurrent streams have come to two memories, they plan the same for an input, and they are
still the same when both have taken the plan. -/
theorem plans_converge (seeds seeds' : Seeds) (log log' : List (StoredEvent MemoryEvent)) (p q : MemoryProjection)
    (hp : replay (memory seeds) log = .ok p ∨ replayOwned (memory seeds) log = .ok p)
    (hq : replay (memory seeds') log' = .ok q ∨ replayOwned (memory seeds') log' = .ok q)
    (hstreams : Interleaved Prod.fst (said log) (said log')) (hwrites : WritesApart (said log))
    (hwithdrawals : WithdrawalsApart (said log)) (unicode : Unicode) (policy : LinkPolicy)
    (provider : ExtractionProvider) (input : ExtractionInput) (clock : ProjectionClock) (x : ExtractionPlan)
    (hplan : plan unicode policy provider input (view p clock) = .ok x) :
    plan unicode policy provider input (view q clock) = .ok x ∧
    ∀ stream stream' expected expected' committed committed' store store' later later',
      append stream expected x.events.items (ofLog log) = .ok committed store →
      append stream' expected' x.events.items (ofLog log') = .ok committed' store' →
      (replay (memory seeds) store.events = .ok later ∨ replayOwned (memory seeds) store.events = .ok later) →
      (replay (memory seeds') store'.events = .ok later' ∨ replayOwned (memory seeds') store'.events = .ok later') →
      ∀ clock, (view later clock).nodes.Perm (view later' clock).nodes ∧
        (view later clock).facts.Perm (view later' clock).facts := by
  have hreordered := reordered_of_streams hstreams hwrites hwithdrawals
  have hsame := same_of_reordered hp hq hreordered
  obtain ⟨linker, hlinker, -⟩ := bind_eq_ok.mp hplan
  refine ⟨(plan_perm policy provider input (hsame.viewNodes clock) ⟨linker, hlinker⟩).trans hplan, ?_⟩
  intro stream stream' expected expected' committed committed' store store' later later' happend happend' hlater hlater'
    clock
  obtain ⟨rfl, hcommitted⟩ := appended (lawful_of_replay hp) happend
  obtain ⟨rfl, hcommitted'⟩ := appended (lawful_of_replay hq) happend'
  have hledgers (earlier more : List (StoredEvent MemoryEvent)) :
      ledger (earlier ++ more) = ledger earlier ++ ledger more := List.map_append
  have hextended : Reordered (ledger (log ++ committed)) (ledger (log' ++ committed')) := by
    rw [hledgers, hledgers, ledger_committed hcommitted, ledger_committed hcommitted']
    exact hreordered.append_right _
  have hagain := same_of_reordered hlater hlater' hextended
  exact ⟨hagain.viewNodes clock, hagain.viewFacts clock⟩

theorem plans_converge_swapped : ∃ p q x, replay (memory ⟨1, 2⟩) taskFirst = .ok p ∧
    replay (memory ⟨3, 4⟩) fileFirst = .ok q ∧ p.nodes ≠ q.nodes ∧ x.events.items.length = 2 ∧
    plan .ascii .default surveyor message (view p surveyClock) = .ok x ∧
    plan .ascii .default surveyor message (view q surveyClock) = .ok x := by
  obtain ⟨p, q, hp, hq, hne⟩ := exists_swapped
  have hrun : (replay (memory ⟨1, 2⟩) taskFirst >>= fun p =>
      plan .ascii .default surveyor message (view p surveyClock)).map (fun x => x.events.items.length) = .ok 2 := by
    decide +kernel
  rw [hp, ok_bind] at hrun
  obtain ⟨x, hplan, hlength⟩ := map_eq_ok.mp hrun
  exact ⟨p, q, x, hp, hq, hne, hlength, hplan, (plans_converge ⟨1, 2⟩ ⟨3, 4⟩ taskFirst fileFirst p q (.inl hp) (.inl hq)
    swapped_interleaved swapped_writes swapped_withdrawals .ascii .default surveyor message surveyClock x hplan).1⟩

end WeavatrixMemory.Extraction.Replicas
