import Mathlib.Algebra.Order.Ring.Nat
import Mathlib.Logic.Function.Basic
import Mathlib.Logic.Relation
import Mathlib.Tactic.Common

namespace Breadth

variable {V : Type}

inductive Walk (Adj : V → V → Prop) (Source : V → Prop) : Nat → V → Prop
  | source {v : V} : Source v → Walk Adj Source 0 v
  | step {n : Nat} {v w : V} : Walk Adj Source n v → Adj v w → Walk Adj Source (n + 1) w

theorem Walk.exists_source {Adj : V → V → Prop} {Source : V → Prop} {n : Nat} {v : V} (h : Walk Adj Source n v) :
    ∃ u, Source u := by
  induction h with
  | source h => exact ⟨_, h⟩
  | step _ _ ih => exact ih

def Distance (Adj : V → V → Prop) (Source : V → Prop) (n : Nat) (v : V) : Prop :=
  Walk Adj Source n v ∧ ∀ m < n, ¬ Walk Adj Source m v

/-- What a search has discovered, and the discovered vertices whose neighbours are still to be looked
at. -/
structure Frontier (V : Type) where
  distance : V → Option Nat
  queue : List V

variable {Adj : V → V → Prop} {Source : V → Prop} {bound depth : Nat} {s : Frontier V}

/-- Between two rounds of a search: the queue is ordered by distance, the distances reach at most one
level beyond its head, and the neighbours of a vertex that has left the queue are discovered. -/
structure Layered (Adj : V → V → Prop) (Source : V → Prop) (bound : Nat) (s : Frontier V) : Prop where
  source : ∀ v, Source v → s.distance v = some 0
  walk : ∀ v n, s.distance v = some n → Walk Adj Source n v ∧ n ≤ bound
  queued : ∀ v ∈ s.queue, ∃ n, s.distance v = some n
  ordered : s.queue.Pairwise fun v w => ∀ m n, s.distance v = some m → s.distance w = some n → m ≤ n
  level : ∀ v rest m, s.queue = v :: rest → s.distance v = some m → ∀ w n, s.distance w = some n → n ≤ m + 1
  closed : ∀ v n, s.distance v = some n → v ∉ s.queue → n < bound → ∀ w, Adj v w →
    ∃ m ≤ n + 1, s.distance w = some m

/-- A search that has come to its end has found the vertices within the bound, at their distances. -/
theorem Layered.exact (h : Layered Adj Source bound s) (hq : s.queue = []) (v : V) (n : Nat) :
    s.distance v = some n ↔ Distance Adj Source n v ∧ n ≤ bound := by
  have hfound : ∀ m w, Walk Adj Source m w → m ≤ bound → ∃ k ≤ m, s.distance w = some k := by
    intro m w hw
    induction hw with
    | source hs => exact fun _ => ⟨0, Nat.le_refl _, h.source _ hs⟩
    | @step m u w _ hadj ih =>
        intro hb
        obtain ⟨k, hk, hu⟩ := ih (Nat.le_of_succ_le hb)
        obtain ⟨l, hl, hw⟩ := h.closed u k hu (hq ▸ List.not_mem_nil) (hk.trans_lt hb) w hadj
        exact ⟨l, hl.trans (Nat.succ_le_succ hk), hw⟩
  have hexact : ∀ m, Walk Adj Source m v → m ≤ bound → s.distance v = some n → n ≤ m := by
    intro m hm hb hn
    obtain ⟨k, hk, hv⟩ := hfound m v hm hb
    rw [hn] at hv
    rwa [Option.some.inj hv]
  constructor
  · intro hn
    obtain ⟨hw, hb⟩ := h.walk v n hn
    exact ⟨⟨hw, fun m hm hwalk => (hexact m hwalk (hm.le.trans hb) hn).not_gt hm⟩, hb⟩
  · intro hn
    obtain ⟨⟨hw, hshortest⟩, hb⟩ := hn
    obtain ⟨k, hk, hv⟩ := hfound n v hw hb
    obtain hlt | rfl := Nat.lt_or_eq_of_le hk
    · exact absurd (h.walk v k hv).1 (hshortest k hlt)
    · exact hv

theorem Layered.start (hdistance : ∀ v n, s.distance v = some n ↔ Source v ∧ n = 0)
    (hqueue : ∀ v, v ∈ s.queue ↔ Source v) : Layered Adj Source bound s := by
  refine ⟨fun v hv => (hdistance v 0).mpr ⟨hv, rfl⟩, fun v n hn => ?_, fun v hv => ?_, ?_,
    fun v rest m _ _ w n hn => ?_, fun v n hn hout => ?_⟩
  · obtain ⟨hv, rfl⟩ := (hdistance v n).mp hn
    exact ⟨.source hv, Nat.zero_le _⟩
  · exact ⟨0, (hdistance v 0).mpr ⟨(hqueue v).mp hv, rfl⟩⟩
  · apply List.pairwise_of_forall_mem_list
    intro v _ w _ m n hm _
    rw [((hdistance v m).mp hm).2]
    exact Nat.zero_le _
  · rw [((hdistance w n).mp hn).2]
    exact Nat.zero_le _
  · exact absurd ((hqueue v).mpr ((hdistance v n).mp hn).1) hout

def remaining (vertices : List V) (s : Frontier V) : Nat :=
  (vertices.filter fun v => s.distance v = none).length + s.queue.length

theorem remaining_le (vertices : List V) : remaining vertices s ≤ vertices.length + s.queue.length :=
  Nat.add_le_add_right (List.length_filter_le _ _) _

theorem remaining_pop {vertices rest : List V} {v : V} (h : s.queue = v :: rest) :
    remaining vertices s = remaining vertices ⟨s.distance, rest⟩ + 1 := by
  rw [remaining, remaining, h, List.length_cons]
  rfl

section Through

variable {edge : V → V → Bool} {u v w : V} {ws : List V}

/-- There is a path whose inner vertices are all listed. -/
def through (edge : V → V → Bool) : List V → V → V → Bool
  | [], u, v => edge u v
  | w :: ws, u, v => through edge ws u v || (through edge ws u w && through edge ws w v)

theorem through_of_edge (h : edge u v = true) : through edge ws u v = true := by
  induction ws with
  | nil => exact h
  | cons w ws ih => rw [through, ih, Bool.true_or]

theorem transGen_of_through (h : through edge ws u v = true) : Relation.TransGen (fun a b => edge a b = true) u v := by
  induction ws generalizing u v with
  | nil => exact .single h
  | cons w ws ih =>
      rw [through, Bool.or_eq_true, Bool.and_eq_true] at h
      obtain h | ⟨hfirst, hlast⟩ := h
      · exact ih h
      · exact (ih hfirst).trans (ih hlast)

theorem through_join (hw : w ∈ ws) (hfirst : through edge ws u w = true) (hlast : through edge ws w v = true) :
    through edge ws u v = true := by
  induction ws generalizing u v w with
  | nil => exact absurd hw List.not_mem_nil
  | cons x ws ih =>
      simp only [through, Bool.or_eq_true, Bool.and_eq_true] at hfirst hlast ⊢
      obtain rfl | hw := List.mem_cons.mp hw
      · exact .inr ⟨hfirst.elim id And.left, hlast.elim id And.right⟩
      · obtain hfirst | ⟨hux, hxw⟩ := hfirst
        · obtain hlast | ⟨hwx, hxv⟩ := hlast
          · exact .inl (ih hw hfirst hlast)
          · exact .inr ⟨ih hw hfirst hwx, hxv⟩
        · obtain hlast | ⟨-, hxv⟩ := hlast
          · exact .inr ⟨hux, ih hw hxw hlast⟩
          · exact .inr ⟨hux, hxv⟩

theorem reached_iff_through (h : ∀ u v, edge u v = true → u ∈ ws) :
    Relation.ReflTransGen (fun a b => edge a b = true) u v ↔ u = v ∨ through edge ws u v = true := by
  constructor
  · intro hpath
    induction hpath with
    | refl => exact .inl rfl
    | @tail w v _ hstep ih =>
        have hlast := @through_of_edge _ edge _ _ ws hstep
        obtain rfl | hfirst := ih
        · exact .inr hlast
        · exact .inr (through_join (h w v hstep) hfirst hlast)
  · rintro (rfl | hthrough)
    · exact .refl
    · exact (transGen_of_through hthrough).to_reflTransGen

end Through

structure Grown (depth : Nat) (s t : Frontier V) (new : List V) : Prop where
  kept : ∀ w n, s.distance w = some n → t.distance w = some n
  found : ∀ w n, t.distance w = some n → s.distance w = some n ∨ w ∈ new ∧ n = depth + 1
  fresh : ∀ w ∈ new, s.distance w = none ∧ t.distance w = some (depth + 1)
  queue : t.queue = s.queue ++ new

variable {t : Frontier V} {new : List V}

theorem Grown.queued (h : Grown depth s t new) (hqueued : ∀ v ∈ s.queue, ∃ n, s.distance v = some n) :
    ∀ v ∈ t.queue, ∃ n, t.distance v = some n := by
  rw [h.queue, List.forall_mem_append]
  refine ⟨fun w hw => ?_, fun w hw => ⟨_, (h.fresh w hw).2⟩⟩
  obtain ⟨n, hn⟩ := hqueued w hw
  exact ⟨n, h.kept w n hn⟩

theorem Grown.ordered (h : Grown depth s t new) (hqueued : ∀ v ∈ s.queue, ∃ n, s.distance v = some n)
    (hordered : s.queue.Pairwise fun v w => ∀ m n, s.distance v = some m → s.distance w = some n → m ≤ n)
    (hlevel : ∀ w n, s.distance w = some n → n ≤ depth + 1) :
    t.queue.Pairwise fun v w => ∀ m n, t.distance v = some m → t.distance w = some n → m ≤ n := by
  rw [h.queue, List.pairwise_append]
  refine ⟨?_, ?_, ?_⟩
  · apply hordered.imp_of_mem
    intro a b ha hb hab m n hm hn
    obtain ⟨m', hm'⟩ := hqueued a ha
    obtain ⟨n', hn'⟩ := hqueued b hb
    rw [h.kept a m' hm'] at hm
    rw [h.kept b n' hn'] at hn
    rw [← Option.some.inj hm, ← Option.some.inj hn]
    exact hab m' n' hm' hn'
  · apply List.pairwise_of_forall_mem_list
    intro a ha b hb m n hm hn
    rw [(h.fresh a ha).2] at hm
    rw [(h.fresh b hb).2] at hn
    rw [← Option.some.inj hm, ← Option.some.inj hn]
  · intro a ha b hb m n hm hn
    obtain ⟨m', hm'⟩ := hqueued a ha
    rw [h.kept a m' hm'] at hm
    rw [(h.fresh b hb).2] at hn
    rw [← Option.some.inj hm, ← Option.some.inj hn]
    exact hlevel a m' hm'

theorem Grown.level (h : Grown depth s t new) (hdeep : ∀ w ∈ s.queue, ∀ m, s.distance w = some m → depth ≤ m)
    (hlevel : ∀ w n, s.distance w = some n → n ≤ depth + 1) {v : V} {rest : List V} {m : Nat}
    (hq : t.queue = v :: rest) (hv : t.distance v = some m) {w : V} {n : Nat} (hw : t.distance w = some n) :
    n ≤ m + 1 := by
  have hdepth : depth ≤ m := by
    obtain hold | ⟨-, rfl⟩ := h.found v m hv
    · have hin : v ∈ s.queue ++ new := by
        rw [← h.queue, hq]
        exact List.mem_cons_self
      obtain hin | hin := List.mem_append.mp hin
      · exact hdeep v hin m hold
      · have hnone := (h.fresh v hin).1
        rw [hold] at hnone
        cases hnone
    · exact Nat.le_succ _
  obtain hw | ⟨-, rfl⟩ := h.found w n hw
  · exact (hlevel w n hw).trans (Nat.succ_le_succ hdepth)
  · exact Nat.succ_le_succ hdepth

variable [DecidableEq V]

def discover (bound depth : Nat) (s : Frontier V) (v : V) : Frontier V :=
  if s.distance v = none ∧ depth < bound then
    ⟨Function.update s.distance v (some (depth + 1)), s.queue ++ [v]⟩
  else s

def expand (bound depth : Nat) (s : Frontier V) (vs : List V) : Frontier V := vs.foldl (discover bound depth) s

theorem expand_filterMap {σ X : Type} {visit : σ → X → σ} {frontier : σ → Frontier V} {neighbor : X → Option V}
    (h : ∀ s x, frontier (visit s x) = (neighbor x).elim (frontier s) (discover bound depth (frontier s))) (xs : List X)
    (s : σ) : frontier (xs.foldl visit s) = expand bound depth (frontier s) (xs.filterMap neighbor) := by
  induction xs generalizing s with
  | nil => rfl
  | cons x xs ih =>
      rw [List.foldl_cons, ih, h, List.filterMap_cons]
      cases neighbor x <;> rfl

theorem expand_of_le (h : bound ≤ depth) (vs : List V) : expand bound depth s vs = s := by
  induction vs with
  | nil => rfl
  | cons v vs ih =>
      have hv : discover bound depth s v = s := if_neg fun hnew => hnew.2.not_ge h
      rw [expand, List.foldl_cons, hv]
      exact ih

theorem expand_eq (vs : List V) :
    (∀ w, (expand bound depth s vs).distance w =
      if s.distance w = none ∧ w ∈ vs ∧ depth < bound then some (depth + 1) else s.distance w) ∧
    ∃ new, (expand bound depth s vs).queue = s.queue ++ new ∧
      ∀ w, w ∈ new ↔ s.distance w = none ∧ w ∈ vs ∧ depth < bound := by
  induction vs generalizing s with
  | nil =>
      refine ⟨fun w => ?_, [], (List.append_nil _).symm, fun w => ?_⟩
      · rw [if_neg fun h => List.not_mem_nil h.2.1]
        rfl
      · exact iff_of_false List.not_mem_nil fun h => List.not_mem_nil h.2.1
  | cons v vs ih =>
      obtain ⟨hdistance, new, hqueue, hmem⟩ := @ih (discover bound depth s v)
      change (∀ w, (expand bound depth (discover bound depth s v) vs).distance w = _) ∧ ∃ new,
        (expand bound depth (discover bound depth s v) vs).queue = _ ∧ _
      by_cases hnew : s.distance v = none ∧ depth < bound
      · have hv : (discover bound depth s v).distance v = some (depth + 1) := by
          rw [discover, if_pos hnew]
          exact Function.update_self _ _ _
        have hother : ∀ w, w ≠ v → (discover bound depth s v).distance w = s.distance w := by
          intro w hw
          rw [discover, if_pos hnew]
          exact Function.update_of_ne hw _ _
        have hpushed : (discover bound depth s v).queue = s.queue ++ [v] := by rw [discover, if_pos hnew]
        refine ⟨fun w => ?_, v :: new, ?_, fun w => ?_⟩
        · rw [hdistance w]
          by_cases hw : w = v
          · subst hw
            simp [hv, hnew]
          · simp [hother w hw, hw]
        · rw [hqueue, hpushed, List.append_assoc, List.singleton_append]
        · rw [List.mem_cons, hmem w]
          by_cases hw : w = v
          · subst hw
            simp [hnew]
          · simp [hother w hw, hw]
      · have hsame : discover bound depth s v = s := if_neg hnew
        rw [hsame] at hdistance hqueue hmem ⊢
        have hiff : ∀ w, (s.distance w = none ∧ w ∈ v :: vs ∧ depth < bound) ↔
            (s.distance w = none ∧ w ∈ vs ∧ depth < bound) := by
          intro w
          rw [List.mem_cons]
          constructor
          · intro h
            obtain ⟨hnone, rfl | hw, hb⟩ := h
            · exact absurd ⟨hnone, hb⟩ hnew
            · exact ⟨hnone, hw, hb⟩
          · intro h
            exact ⟨h.1, .inr h.2.1, h.2.2⟩
        refine ⟨fun w => ?_, new, hqueue, fun w => (hmem w).trans (hiff w).symm⟩
        rw [hdistance w]
        simp only [hiff w]

theorem expand_grown (vs : List V) : ∃ new, Grown depth s (expand bound depth s vs) new ∧
    ∀ w, w ∈ new ↔ s.distance w = none ∧ w ∈ vs ∧ depth < bound := by
  obtain ⟨hdistance, new, hqueue, hmem⟩ := @expand_eq _ bound depth s _ vs
  refine ⟨new, ⟨fun w n hw => ?_, fun w n hw => ?_, fun w hw => ?_, hqueue⟩, hmem⟩
  · rw [hdistance w, if_neg]
    · exact hw
    · intro hn
      rw [hw] at hn
      cases hn.1
  · rw [hdistance w] at hw
    split at hw
    · rename_i hn
      exact .inr ⟨(hmem w).mpr hn, (Option.some.inj hw).symm⟩
    · exact .inl hw
  · have hn := (hmem w).mp hw
    exact ⟨hn.1, by rw [hdistance w, if_pos hn]⟩

/-- A round of the search: the head of the queue is expanded. -/
theorem Layered.expand (h : Layered Adj Source bound s) {v : V} {rest vs : List V} (hq : s.queue = v :: rest)
    (hd : s.distance v = some depth) (hvs : ∀ w, w ∈ vs ↔ Adj v w) :
    Layered Adj Source bound (Breadth.expand bound depth ⟨s.distance, rest⟩ vs) := by
  obtain ⟨new, hgrown, hmem⟩ := @expand_grown _ bound depth ⟨s.distance, rest⟩ _ vs
  generalize Breadth.expand bound depth ⟨s.distance, rest⟩ vs = t at hgrown ⊢
  have hlevel := h.level v rest depth hq hd
  have hbefore := h.ordered
  rw [hq, List.pairwise_cons] at hbefore
  have hqueued := h.queued
  rw [hq, List.forall_mem_cons] at hqueued
  refine ⟨fun w hw => hgrown.kept w 0 (h.source w hw), fun w n hw => ?_, hgrown.queued hqueued.2,
    hgrown.ordered hqueued.2 hbefore.2 hlevel, fun a later m ha hm w n hw => hgrown.level
      (fun b hb m hm => hbefore.1 b hb depth m hd hm) hlevel ha hm hw, ?_⟩
  · obtain hw | ⟨hin, rfl⟩ := hgrown.found w n hw
    · exact h.walk w n hw
    · obtain ⟨-, hvs', hb⟩ := (hmem w).mp hin
      exact ⟨(h.walk v depth hd).1.step ((hvs w).mp hvs'), hb⟩
  · intro a n ha hout hb w hw
    rw [hgrown.queue, List.mem_append, not_or] at hout
    obtain ha | ⟨ha, -⟩ := hgrown.found a n ha
    · by_cases hav : a = v
      · subst hav
        obtain rfl : n = depth := Option.some.inj (ha.symm.trans hd)
        cases hs : s.distance w with
        | none =>
            have hin := (hmem w).mpr ⟨hs, (hvs w).mpr hw, hb⟩
            exact ⟨n + 1, Nat.le_refl _, (hgrown.fresh w hin).2⟩
        | some m => exact ⟨m, hlevel w m hs, hgrown.kept w m hs⟩
      · have hleft : a ∉ s.queue := by
          rw [hq, List.mem_cons, not_or]
          exact ⟨hav, hout.1⟩
        obtain ⟨m, hm, hs⟩ := h.closed a n ha hleft hb w hw
        exact ⟨m, hm, hgrown.kept w m hs⟩
    · exact absurd ha hout.2

theorem remaining_discover {vertices : List V} {v : V} (hv : v ∈ vertices) :
    remaining vertices (discover bound depth s v) ≤ remaining vertices s := by
  rw [discover]
  split
  · rename_i h
    have hlt : (vertices.filter fun w => Function.update s.distance v (some (depth + 1)) w = none).length <
        (vertices.filter fun w => s.distance w = none).length := by
      have hsub : (vertices.filter fun w => Function.update s.distance v (some (depth + 1)) w = none) =
          (vertices.filter fun w => s.distance w = none).filter fun w => w ≠ v := by
        rw [List.filter_filter]
        apply List.filter_congr
        intro w _
        by_cases hw : w = v
        · subst hw
          simp
        · simp [hw]
      rw [hsub]
      apply List.length_filter_lt_length_iff_exists.mpr
      exact ⟨v, List.mem_filter.mpr ⟨hv, decide_eq_true h.1⟩, by simp⟩
    simp only [remaining, List.length_append, List.length_singleton]
    omega
  · exact Nat.le_refl _

theorem remaining_expand {vertices vs : List V} (hvs : ∀ v ∈ vs, v ∈ vertices) :
    remaining vertices (expand bound depth s vs) ≤ remaining vertices s := by
  induction vs generalizing s with
  | nil => exact Nat.le_refl _
  | cons v vs ih =>
      obtain ⟨hv, hvs⟩ := List.forall_mem_cons.mp hvs
      exact (ih hvs).trans (remaining_discover hv)

end Breadth
