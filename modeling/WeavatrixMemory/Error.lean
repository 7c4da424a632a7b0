import Mathlib.Algebra.Order.Ring.Nat
import Mathlib.Tactic.Common

namespace WeavatrixMemory.Error

/-- The variants of the source's error enum, and two ways in which a call ends without an error
value: `panicked` stands for an index expression or an `expect` that fails, `stopped` for the end of
the process. -/
inductive MemoryError
  | invalidId (kind value : String)
  | invalidValue (field reason : String)
  | versionConflict (stream : String) (expected actual : Option UInt64)
  | duplicateEvent (id : String)
  | invalidReplay (reason : String)
  | missingEntity (id : String)
  | missingFact (id : String)
  | conflictingFact (id : String)
  | budgetTooSmall (required available : Nat)
  | capacityOverflow
  | io (operation message : String)
  | codec (message : String)
  | corruptLog (offset : UInt64) (reason : String)
  | externalModification
  | retrieval (provider message : String)
  | extraction (provider message : String)
  | graph (reason : String)
  | panicked
  | stopped
deriving DecidableEq

theorem missingEntity_ne_panicked (id : String) : MemoryError.missingEntity id ≠ .panicked := by simp

abbrev Result (α : Type) := Except MemoryError α

/-- A method on `&mut self` that returns a `Result`: what it did to `self` before it failed
stays done. -/
abbrev Update (σ α : Type) := EStateM MemoryError σ α

variable {σ α β : Type}

def ofResult : Result α → Update σ α
  | .ok a => fun s => .ok a s
  | .error e => fun s => .error e s

instance : MonadLift Result (Update σ) := ⟨ofResult⟩

@[simp] theorem ofResult_ok (a : α) (s : σ) : ofResult (.ok a) s = .ok a s := rfl

@[simp] theorem ofResult_error (e : MemoryError) (s : σ) :
    (ofResult (.error e) : Update σ α) s = .error e s := rfl

@[simp] theorem monadLift_eq (r : Result α) : (monadLift r : Update σ α) = ofResult r := rfl

@[simp] theorem liftM_eq (r : Result α) : (liftM r : Update σ α) = ofResult r := rfl

theorem bind_apply (x : Update σ α) (f : α → Update σ β) (s : σ) :
    (x >>= f) s = match x s with
      | .ok a t => f a t
      | .error e t => .error e t := by
  change EStateM.bind x f s = _
  unfold EStateM.bind
  cases x s <;> rfl

theorem bind_apply_eq_ok {x : Update σ α} {f : α → Update σ β} {s u : σ} {b : β} :
    (x >>= f) s = .ok b u ↔ ∃ a t, x s = .ok a t ∧ f a t = .ok b u := by
  rw [bind_apply]
  cases x s with
  | ok a t =>
      constructor
      · exact fun h => ⟨a, t, rfl, h⟩
      · rintro ⟨_, _, ⟨⟩, h⟩
        exact h
  | error e t =>
      constructor
      · intro h
        cases h
      · rintro ⟨_, _, ⟨⟩, _⟩

theorem lift_apply_eq_ok {x : Result α} {s t : σ} {a : α} :
    (liftM x : Update σ α) s = .ok a t ↔ x = .ok a ∧ s = t := by
  cases x with
  | ok b => simp
  | error e => simp

theorem get_apply (s : σ) : (get : Update σ σ) s = .ok s s := rfl

theorem set_apply (s t : σ) : (set t : Update σ PUnit) s = .ok ⟨⟩ t := rfl

theorem modify_apply (f : σ → σ) (s : σ) : (modify f : Update σ PUnit) s = .ok ⟨⟩ (f s) := rfl

/-- The state a call leaves behind, whether it succeeded or failed. -/
def after : EStateM.Result MemoryError σ α → σ
  | .ok _ s => s
  | .error _ s => s

@[simp] theorem after_ok (a : α) (s : σ) :
    after (EStateM.Result.ok a s : EStateM.Result MemoryError σ α) = s := rfl

@[simp] theorem after_error (e : MemoryError) (s : σ) :
    after (EStateM.Result.error e s : EStateM.Result MemoryError σ α) = s := rfl

def accepted : EStateM.Result MemoryError σ α → Bool
  | .ok _ _ => true
  | .error _ _ => false

theorem eq_ok_of_accepted {x : EStateM.Result MemoryError σ Unit} (h : accepted x = true) :
    x = .ok () (after x) := by
  cases x with
  | ok u s => rfl
  | error e s => cases h

theorem bind_eq_ok {x : Result α} {f : α → Result β} {b : β} :
    (x >>= f) = .ok b ↔ ∃ a, x = .ok a ∧ f a = .ok b := by
  cases x with
  | ok a =>
      constructor
      · exact fun h => ⟨a, rfl, h⟩
      · rintro ⟨_, ⟨⟩, h⟩
        exact h
  | error e =>
      constructor
      · intro h
        cases h
      · rintro ⟨_, ⟨⟩, _⟩

theorem unit_bind_eq_ok {x : Result Unit} {f : Unit → Result β} {b : β} :
    (x >>= f) = .ok b ↔ x = .ok () ∧ f () = .ok b := by
  rw [bind_eq_ok]
  exact ⟨fun ⟨_, hx, hf⟩ => ⟨hx, hf⟩, fun ⟨hx, hf⟩ => ⟨(), hx, hf⟩⟩

theorem bind_eq_error {x : Result α} {f : α → Result β} {e : MemoryError} :
    (x >>= f) = .error e ↔ x = .error e ∨ ∃ a, x = .ok a ∧ f a = .error e := by
  cases x with
  | ok a =>
      constructor
      · exact fun h => .inr ⟨a, rfl, h⟩
      · rintro (⟨⟨⟩⟩ | ⟨_, ⟨⟩, h⟩)
        exact h
  | error e =>
      constructor
      · intro h
        cases h
        exact .inl rfl
      · rintro (h | ⟨_, ⟨⟩, _⟩)
        cases h
        rfl

theorem map_eq_ok {x : Result α} {f : α → β} {b : β} : x.map f = .ok b ↔ ∃ a, x = .ok a ∧ f a = b := by
  cases x with
  | ok a => simp [Except.map]
  | error e => simp [Except.map]

theorem exists_ok_of_isOk {x : Result α} (h : x.isOk = true) : ∃ a, x = .ok a := by
  cases x with
  | ok a => exact ⟨a, rfl⟩
  | error e => cases h

/-- A call on a value that is dropped when the call fails. -/
def runOn (call : Update σ Unit) (s : σ) : Result σ :=
  match call s with
  | .ok _ t => .ok t
  | .error e _ => .error e

theorem runOn_eq_ok {call : Update σ Unit} {s t : σ} : runOn call s = .ok t ↔ call s = .ok () t := by
  unfold runOn
  cases call s <;> simp

/-- `if c { return Err(e) }` of the source. -/
def throwIf (c : Prop) [Decidable c] (e : MemoryError) : Result Unit :=
  if c then .error e else .ok ()

theorem throwIf_eq_ok {c : Prop} [Decidable c] {e : MemoryError} {u : Unit} :
    throwIf c e = .ok u ↔ ¬ c := by
  unfold throwIf
  split <;> simp [*]

theorem throwIf_of_not {c : Prop} [Decidable c] (h : ¬ c) (e : MemoryError) : throwIf c e = .ok () :=
  if_neg h

theorem throwIf_eq_error {c : Prop} [Decidable c] {e e' : MemoryError} :
    throwIf c e = .error e' ↔ c ∧ e = e' := by
  unfold throwIf
  split <;> simp [*]

@[simp] theorem ok_bind (a : α) (f : α → Result β) : ((.ok a : Result α) >>= f) = f a := rfl

@[simp] theorem error_bind (e : MemoryError) (f : α → Result β) :
    ((.error e : Result α) >>= f) = .error e := rfl

/-- A computation that may fail but meets no index error. -/
def Safe {α : Type} (x : Result α) : Prop := x ≠ .error .panicked

theorem safe_ok {α : Type} (a : α) : Safe (.ok a) := fun h => nomatch h

theorem safe_error {α : Type} {e : MemoryError} (h : e ≠ .panicked) : Safe (.error e : Result α) :=
  fun he => h (Except.error.inj he)

theorem Safe.bind {α β : Type} {x : Result α} {f : α → Result β} (hx : Safe x)
    (hf : ∀ a, x = .ok a → Safe (f a)) : Safe (x >>= f) := by
  cases x with
  | ok a => exact hf a rfl
  | error e => exact fun h => hx (by cases h; rfl)

theorem safe_throwIf {c : Prop} [Decidable c] {e : MemoryError} (h : e ≠ .panicked) :
    Safe (throwIf c e) := by
  intro hc
  exact h (throwIf_eq_error.mp hc).2

/-- A call that makes all its checks first and then writes: on a failed check the state is as it
was. -/
def guarded {γ : Type} (commit : γ → σ) (s : σ) (checked : Result γ) : EStateM.Result MemoryError σ Unit :=
  match checked with
  | .ok c => .ok () (commit c)
  | .error e => .error e s

theorem bind_guarded {γ : Type} {commit : γ → σ} {s : σ} {checked : Result α}
    {f : α → Update σ Unit} {g : α → Result γ}
    (h : ∀ a, checked = .ok a → f a s = guarded commit s (g a)) :
    (ofResult checked >>= f) s = guarded commit s (checked >>= g) := by
  rw [bind_apply]
  cases checked with
  | ok a => exact h a rfl
  | error e => rfl

/-- `xs[i]` of the source: out of range it panics. -/
def getAt (xs : List α) (i : Nat) : Result α :=
  match xs[i]? with
  | some a => .ok a
  | none => .error .panicked

def setAt (xs : List α) (i : Nat) (a : α) : Result (List α) :=
  if i < xs.length then .ok (xs.set i a) else .error .panicked

/-- `&xs[lo..hi]` of the source. -/
def sliceAt (xs : List α) (lo hi : Nat) : Result (List α) :=
  if lo ≤ hi ∧ hi ≤ xs.length then .ok ((xs.drop lo).take (hi - lo)) else .error .panicked

theorem getAt_eq_ok {xs : List α} {i : Nat} {a : α} : getAt xs i = .ok a ↔ xs[i]? = some a := by
  unfold getAt
  cases xs[i]? <;> simp

theorem mapM_getAt (xs : List α) (entries : List (α × Nat))
    (h : ∀ e ∈ entries, xs[e.2]? = some e.1) :
    (entries.map (·.2)).mapM (getAt xs) = .ok (entries.map (·.1)) := by
  induction entries with
  | nil => rfl
  | cons e entries ih =>
      obtain ⟨he, hrest⟩ := List.forall_mem_cons.mp h
      rw [List.map_cons, List.mapM_cons, getAt_eq_ok.mpr he, ih hrest]
      rfl

theorem setAt_of_lt {xs : List α} {i : Nat} (h : i < xs.length) (a : α) :
    setAt xs i a = .ok (xs.set i a) := if_pos h

theorem sliceAt_of_le {xs : List α} {lo hi : Nat} (h : lo ≤ hi) (h' : hi ≤ xs.length) :
    sliceAt xs lo hi = .ok ((xs.drop lo).take (hi - lo)) := if_pos ⟨h, h'⟩

/-- The `checked_add` of `usize`, given the exact sum. -/
def usizeChecked (n : Nat) : Result Nat :=
  if n < 2 ^ 64 then .ok n else .error .capacityOverflow

theorem usizeChecked_eq_ok {n m : Nat} : usizeChecked n = .ok m ↔ n < 2 ^ 64 ∧ n = m := by
  rw [usizeChecked]
  split
  next hlt => rw [Except.ok.injEq, and_iff_right hlt]
  next hle => simp only [reduceCtorEq, hle, false_and]

theorem safe_usizeChecked (n : Nat) : Safe (usizeChecked n) := by
  rw [usizeChecked]
  split
  · exact safe_ok n
  · exact safe_error (by nofun)

/-- `u64::try_from` on a `usize`, with the error every caller maps it to. -/
def u64TryFrom (n : Nat) : Result UInt64 :=
  if n < 2 ^ 64 then .ok (UInt64.ofNat n) else .error .capacityOverflow

def checkedAdd (a b : UInt64) : Result UInt64 := u64TryFrom (a.toNat + b.toNat)

/-- `map_or(Ok(0), |last| last.checked_add(1))`. -/
def following : Option UInt64 → Result UInt64
  | none => .ok 0
  | some last => checkedAdd last 1

def nextOf : Option UInt64 → Nat
  | none => 0
  | some last => last.toNat + 1

theorem u64TryFrom_eq_ok {n : Nat} {w : UInt64} : u64TryFrom n = .ok w ↔ w.toNat = n := by
  unfold u64TryFrom
  split
  · rename_i h
    rw [Except.ok.injEq]
    constructor
    · rintro rfl
      exact UInt64.toNat_ofNat_of_lt' h
    · rintro rfl
      exact UInt64.ofNat_toNat
  · rename_i h
    have hw := w.toNat_lt
    simp only [reduceCtorEq, false_iff]
    omega

theorem u64TryFrom_of_lt {n : Nat} (h : n < 2 ^ 64) : u64TryFrom n = .ok (UInt64.ofNat n) :=
  u64TryFrom_eq_ok.mpr (UInt64.toNat_ofNat_of_lt' h)

theorem checkedAdd_eq_ok {a b w : UInt64} : checkedAdd a b = .ok w ↔ w.toNat = a.toNat + b.toNat :=
  u64TryFrom_eq_ok

theorem following_eq_ok {last : Option UInt64} {w : UInt64} : following last = .ok w ↔ w.toNat = nextOf last := by
  cases last with
  | none =>
      rw [following, nextOf, Except.ok.injEq, eq_comm, ← UInt64.toNat_inj]
      rfl
  | some last => exact checkedAdd_eq_ok

theorem nextOf_inj {a b : Option UInt64} (h : nextOf a = nextOf b) : a = b := by
  cases a with
  | none => cases b with
    | none => rfl
    | some b => cases h
  | some a => cases b with
    | none => cases h
    | some b => exact congrArg some (UInt64.toNat_inj.mp (Nat.succ.inj h))

theorem u64TryFrom_eq_error {n : Nat} {e : MemoryError} :
    u64TryFrom n = .error e ↔ 2 ^ 64 ≤ n ∧ e = .capacityOverflow := by
  unfold u64TryFrom
  split
  · simp only [reduceCtorEq, false_iff]
    omega
  · simp only [Except.error.injEq]
    constructor
    · rintro rfl
      exact ⟨by omega, rfl⟩
    · rintro ⟨_, rfl⟩
      rfl

end WeavatrixMemory.Error
