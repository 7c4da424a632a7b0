import WeavatrixMemory.Store.Validators

namespace WeavatrixMemory.Store.Tracking

open Error Identity Domain Logs InMemory EventLog Validators Projection.Replay

variable {E P : Type} {log : List (StoredEvent E)} {trait : ProjectionTrait E P}

theorem nextOf_injective : Function.Injective nextOf := by
  intro a b h
  cases a with
  | none =>
      cases b with
      | none => rfl
      | some n => exact absurd h.symm (Nat.succ_ne_zero _)
  | some m =>
      cases b with
      | none => exact absurd h (Nat.succ_ne_zero _)
      | some n => exact congrArg some (UInt64.toNat_inj.mp (Nat.succ_injective h))

theorem applyLoop_lawful {step : StoredEvent E → Update P Unit} {requireZeroStart : Bool}
    {events : List (StoredEvent E)} {p q : P} {cursor cursor' : ReplayCursor} (hl : Lawful Continues log)
    (h : Tracks log cursor)
    (hr : applyLoop step requireZeroStart events (log.map (·.metadata.id)).reverse p cursor = .ok (q, cursor')) :
    Lawful Continues (log ++ events) ∧ Tracks (log ++ events) cursor' := by
  induction events generalizing log p cursor with
  | nil =>
      obtain ⟨-, rfl⟩ := Prod.mk.inj (Except.ok.inj hr)
      rw [List.append_nil]
      exact ⟨hl, h⟩
  | cons event rest ih =>
      obtain ⟨hfollows, next, -, hr⟩ := applyLoop_cons_eq_ok.mp hr
      have hc := h.follows_iff.mp hfollows
      have hids : event.metadata.id :: (log.map (·.metadata.id)).reverse =
          ((log ++ [event]).map (·.metadata.id)).reverse := by simp
      rw [hids] at hr
      have hrest := ih (hl.snoc hc) (h.after hc) hr
      rwa [List.append_assoc, List.singleton_append] at hrest

theorem replayTracked_lawful {events : List (StoredEvent E)} {p : P} {cursor : ReplayCursor}
    (h : replayTracked trait events = .ok (p, cursor)) : Lawful Continues events ∧ Tracks events cursor :=
  applyLoop_lawful lawful_nil tracks_nil h

theorem lawful_take (h : Lawful Continues log) (n : Nat) : Lawful Continues (log.take n) := by
  rw [← List.take_append_drop n log] at h
  exact (lawful_append.mp h).1

theorem lawful_continues (h : Lawful Continues log) {n : Nat} {event : StoredEvent E} (hn : log[n]? = some event) :
    Continues (log.take n) event := by
  obtain ⟨hlt, rfl⟩ := List.getElem?_eq_some_iff.mp hn
  have hnext := lawful_take h (n + 1)
  rw [List.take_add_one, hn] at hnext
  exact grows_singleton.mp (lawful_append.mp hnext).2

theorem getElem?_of_position (h : Lawful Continues log) {event : StoredEvent E} (he : event ∈ log) :
    log[event.metadata.globalPosition.toNat]? = some event := by
  obtain ⟨i, hi⟩ := List.getElem?_of_mem he
  rw [(Validators.Lawful.wellFormed h).position i event hi]
  exact hi

theorem applyLoop_next {step : StoredEvent E → Update P Unit} {requireZeroStart : Bool}
    {events : List (StoredEvent E)} {eventIds : List EventId} {p q : P} {cursor cursor' : ReplayCursor} {n : Nat}
    (hl : Lawful Continues log) (hn : n ≤ log.length) (h : Tracks (log.take n) cursor)
    (hdrawn : ∀ event ∈ events, event ∈ log)
    (hr : applyLoop step requireZeroStart events eventIds p cursor = .ok (q, cursor')) :
    n + events.length ≤ log.length ∧ events = (log.drop n).take events.length ∧
      Tracks (log.take (n + events.length)) cursor' := by
  induction events generalizing eventIds p cursor n with
  | nil =>
      obtain ⟨-, rfl⟩ := Prod.mk.inj (Except.ok.inj hr)
      exact ⟨hn, rfl, h⟩
  | cons event rest ih =>
      obtain ⟨hfollows, next, -, hr⟩ := applyLoop_cons_eq_ok.mp hr
      have hposition : event.metadata.globalPosition.toNat = n := by
        rw [following_eq_ok.mp hfollows.position, h.position, List.length_take, min_eq_left hn]
      have hat := getElem?_of_position hl (hdrawn event List.mem_cons_self)
      rw [hposition] at hat
      obtain ⟨hlt, -⟩ := List.getElem?_eq_some_iff.mp hat
      have hafter := h.after (lawful_continues hl hat)
      have hsnoc : log.take (n + 1) = log.take n ++ [event] := by
        rw [List.take_add_one, hat]
        rfl
      rw [← hsnoc] at hafter
      obtain ⟨hle, heq, htracks⟩ := ih hlt hafter (fun other ho => hdrawn other (List.mem_cons_of_mem _ ho)) hr
      have hdrop : log.drop n = event :: log.drop (n + 1) := by
        rw [List.drop_eq_getElem_cons hlt]
        exact congrArg (· :: _) (Option.some.inj ((List.getElem?_eq_getElem hlt).symm.trans hat))
      rw [List.length_cons, ← Nat.add_assoc, Nat.add_right_comm]
      refine ⟨hle, ?_, htracks⟩
      rw [hdrop, List.take_succ_cons]
      exact congrArg _ heq

/-- Of the events of a log, whichever are handed in and however often, those that come next are taken in. -/
theorem resume_next {s : ProjectionSnapshot P} {tail : List (StoredEvent E)} {q : P} {cursor : ReplayCursor} {n : Nat}
    (hl : Lawful Continues log) (hn : n ≤ log.length) (h : Tracks (log.take n) s.cursor)
    (hdrawn : ∀ event ∈ tail, event ∈ log) (hr : resume trait s tail = .ok (q, cursor)) :
    n + tail.length ≤ log.length ∧ tail = (log.drop n).take tail.length ∧ Tracks (log.take (n + tail.length)) cursor :=
  applyLoop_next hl hn h hdrawn hr

end WeavatrixMemory.Store.Tracking
