import Mathlib.Logic.Basic

namespace Outcome

variable {ε σ α β : Type}

/-- A postcondition for each way a fallible computation can end. -/
def Holds (good : α → Prop) (bad : ε → Prop) : Except ε α → Prop
  | .ok a => good a
  | .error e => bad e

theorem Holds.bind {good : α → Prop} {bad : ε → Prop} {good' : β → Prop} {x : Except ε α}
    {f : α → Except ε β} (hx : Holds good bad x) (hf : ∀ a, good a → Holds good' bad (f a)) :
    Holds good' bad (x >>= f) := by
  cases x with
  | ok a => exact hf a hx
  | error e => exact hx

theorem holds_ok_bind {good : β → Prop} {bad : ε → Prop} {a : α} {f : α → Except ε β}
    (h : Holds good bad (f a)) : Holds good bad (.ok a >>= f) := h

theorem Holds.check {good : β → Prop} {bad : ε → Prop} {x : Except ε α} {f : α → Except ε β}
    (he : ∀ e, x = .error e → bad e) (hf : ∀ a, x = .ok a → Holds good bad (f a)) :
    Holds good bad (x >>= f) := by
  cases x with
  | ok a => exact hf a rfl
  | error e => exact he e rfl

theorem Holds.mono {good good' : α → Prop} {bad bad' : ε → Prop} {x : Except ε α}
    (hx : Holds good bad x) (hg : ∀ a, good a → good' a) (hb : ∀ e, bad e → bad' e) :
    Holds good' bad' x := by
  cases x with
  | ok a => exact hg a hx
  | error e => exact hb e hx

theorem Holds.exists_ok {good : α → Prop} {x : Except ε α} (hx : Holds good (fun _ => False) x) :
    ∃ a, x = .ok a ∧ good a := by
  cases x with
  | ok a => exact ⟨a, rfl, hx⟩
  | error e => exact hx.elim

theorem Holds.of_ok {good : α → Prop} {bad : ε → Prop} {x : Except ε α} {a : α}
    (hx : Holds good bad x) (h : x = .ok a) : good a := by
  rwa [h] at hx

theorem Holds.of_error {good : α → Prop} {bad : ε → Prop} {x : Except ε α} {e : ε}
    (hx : Holds good bad x) (h : x = .error e) : bad e := by
  rwa [h] at hx

theorem Holds.mapM {good : β → Prop} {bad : ε → Prop} {f : α → Except ε β} {xs : List α}
    (h : ∀ x ∈ xs, Holds good bad (f x)) : Holds (fun ys => ∀ y ∈ ys, good y) bad (xs.mapM f) := by
  induction xs with
  | nil => exact fun _ h => absurd h List.not_mem_nil
  | cons x xs ih =>
      obtain ⟨hx, hxs⟩ := List.forall_mem_cons.mp h
      rw [List.mapM_cons]
      refine hx.bind fun y hy => (ih hxs).bind fun ys hys => ?_
      exact List.forall_mem_cons.mpr ⟨hy, hys⟩

theorem Holds.foldlM {inv : β → Prop} {bad : ε → Prop} {f : β → α → Except ε β} {xs : List α} {s : β}
    (hf : ∀ s, inv s → ∀ x ∈ xs, Holds inv bad (f s x)) (hs : inv s) : Holds inv bad (xs.foldlM f s) := by
  induction xs generalizing s with
  | nil => exact hs
  | cons x xs ih =>
      rw [List.foldlM_cons]
      refine (hf s hs x List.mem_cons_self).bind fun t ht => ih (fun s hs y hy => ?_) ht
      exact hf s hs y (List.mem_cons_of_mem _ hy)

/-- Two computations that end alike: in related values, or in the same error. -/
def Parallel {γ : Type} (r : α → γ → Prop) : Except ε α → Except ε γ → Prop
  | .ok a, .ok c => r a c
  | .error e, .error e' => e = e'
  | .ok _, .error _ => False
  | .error _, .ok _ => False

theorem Parallel.bind {γ δ : Type} {r : α → γ → Prop} {r' : β → δ → Prop} {x : Except ε α} {y : Except ε γ}
    {f : α → Except ε β} {g : γ → Except ε δ} (h : Parallel r x y)
    (hf : ∀ a c, r a c → Parallel r' (f a) (g c)) : Parallel r' (x >>= f) (y >>= g) := by
  cases x with
  | ok a =>
      cases y with
      | ok c => exact hf a c h
      | error e => exact h.elim
  | error e =>
      cases y with
      | ok c => exact h.elim
      | error e' => exact h

theorem Parallel.map {γ δ : Type} {r : α → γ → Prop} {r' : β → δ → Prop} {x : Except ε α} {y : Except ε γ}
    {f : α → β} {g : γ → δ} (h : Parallel r x y) (hf : ∀ a c, r a c → r' (f a) (g c)) :
    Parallel r' (x.map f) (y.map g) := by
  cases x with
  | ok a =>
      cases y with
      | ok c => exact hf a c h
      | error e => exact h.elim
  | error e =>
      cases y with
      | ok c => exact h.elim
      | error e' => exact h

theorem Parallel.of_map {γ δ : Type} {r : α → δ → Prop} {x : Except ε α} {y : Except ε γ} {g : γ → δ}
    (h : Parallel r x (y.map g)) : Parallel (fun a c => r a (g c)) x y := by
  cases x with
  | ok a =>
      cases y with
      | ok c => exact h
      | error e => exact h.elim
  | error e =>
      cases y with
      | ok c => exact h.elim
      | error e' => exact h

theorem parallel_of_eq {x y : Except ε α} (h : x = y) : Parallel Eq x y := by
  subst h
  cases x <;> exact rfl

theorem eq_of_parallel {x y : Except ε α} (h : Parallel Eq x y) : x = y := by
  cases x with
  | ok a =>
      cases y with
      | ok b => exact congrArg Except.ok h
      | error e => exact h.elim
  | error e =>
      cases y with
      | ok b => exact h.elim
      | error e' => exact congrArg Except.error h

/-- The same for a computation with a state, which both ways of ending leave behind. -/
def Ends (good : α → σ → Prop) (bad : ε → σ → Prop) : EStateM.Result ε σ α → Prop
  | .ok a s => good a s
  | .error e s => bad e s

theorem Ends.bind {good : α → σ → Prop} {bad : ε → σ → Prop} {good' : β → σ → Prop} {x : EStateM ε σ α}
    {f : α → EStateM ε σ β} {s : σ} (hx : Ends good bad (x s))
    (hf : ∀ a t, good a t → Ends good' bad (f a t)) : Ends good' bad ((x >>= f) s) := by
  change Ends good' bad (EStateM.bind x f s)
  rw [EStateM.bind]
  cases h : x s with
  | ok a t =>
      rw [h] at hx
      exact hf a t hx
  | error e t =>
      rw [h] at hx
      exact hx

theorem Ends.mono {good good' : α → σ → Prop} {bad bad' : ε → σ → Prop} {x : EStateM.Result ε σ α}
    (hx : Ends good bad x) (hg : ∀ a s, good a s → good' a s) (hb : ∀ e s, bad e s → bad' e s) :
    Ends good' bad' x := by
  cases x with
  | ok a s => exact hg a s hx
  | error e s => exact hb e s hx

theorem Ends.of_ok {good : α → σ → Prop} {bad : ε → σ → Prop} {x : EStateM.Result ε σ α} {a : α} {s : σ}
    (hx : Ends good bad x) (h : x = .ok a s) : good a s := by
  rwa [h] at hx

theorem Ends.of_error {good : α → σ → Prop} {bad : ε → σ → Prop} {x : EStateM.Result ε σ α} {e : ε} {s : σ}
    (hx : Ends good bad x) (h : x = .error e s) : bad e s := by
  rwa [h] at hx

end Outcome
