import Mathlib.Algebra.Order.Ring.Nat
import Mathlib.Tactic.Common
import WeavatrixMemory.Library.Outcome

namespace Format

open Outcome (Ends)

variable {τ ε α β : Type}

structure Cursor (τ : Type) where
  items : List τ
  position : Nat

/-- Started where the encoding starts, the reader returns the value and stops where the encoding
ends, whatever surrounds it in a sequence shorter than the limit. -/
def Reads (limit : Nat) (read : EStateM ε (Cursor τ) α) (enc : List τ) (a : α) : Prop :=
  ∀ front rest, front.length + enc.length + rest.length < limit →
    read ⟨front ++ enc ++ rest, front.length⟩ =
      .ok a ⟨front ++ enc ++ rest, front.length + enc.length⟩

def Writes (write : EStateM ε (List τ) Unit) (enc : List τ) : Prop :=
  ∀ front, write front = .ok () (front ++ enc)

/-- A writer and a reader agree on a value, whose encoding has at least `n` tokens. -/
def Codes (limit n : Nat) (write : EStateM ε (List τ) Unit) (read : EStateM ε (Cursor τ) α) (a : α) :
    Prop :=
  ∃ enc, n ≤ enc.length ∧ Writes write enc ∧ Reads limit read enc a

theorem bind_of_ok {σ : Type} {x : EStateM ε σ α} {f : α → EStateM ε σ β} {s t : σ} {a : α}
    (h : x s = .ok a t) : (x >>= f) s = f a t := by
  change EStateM.bind x f s = _
  simp only [EStateM.bind, h]

variable {limit m n : Nat} {write write' : EStateM ε (List τ) Unit} {read : EStateM ε (Cursor τ) α}
  {next : α → EStateM ε (Cursor τ) β} {a : α} {b : β}

theorem Reads.bind {enc enc' : List τ} (h : Reads limit read enc a) (h' : Reads limit (next a) enc' b) :
    Reads limit (read >>= next) (enc ++ enc') b := by
  intro front rest hlt
  rw [List.length_append] at hlt
  have hread := h front (enc' ++ rest) (by rw [List.length_append]; omega)
  have hnext := h' (front ++ enc) rest (by rw [List.length_append]; omega)
  have hitems : front ++ (enc ++ enc') ++ rest = front ++ enc ++ (enc' ++ rest) := by
    simp only [List.append_assoc]
  rw [hitems, bind_of_ok hread, ← List.length_append, ← List.append_assoc (front ++ enc), hnext]
  simp only [List.length_append, Nat.add_assoc]

theorem Writes.bind {enc enc' : List τ} (h : Writes write enc) (h' : Writes write' enc') :
    Writes (write >>= fun _ => write') (enc ++ enc') := by
  intro front
  rw [bind_of_ok (h front), h' (front ++ enc), List.append_assoc]

theorem Codes.pure (limit : Nat) (a : α) :
    Codes limit 0 (pure () : EStateM ε (List τ) Unit) (pure a : EStateM ε (Cursor τ) α) a := by
  refine ⟨[], le_rfl, fun front => ?_, fun front rest _ => ?_⟩
  · rw [List.append_nil]
    rfl
  · rw [List.append_nil, List.length_nil, Nat.add_zero]
    rfl

theorem Codes.bind (h : Codes limit m write read a) (h' : Codes limit n write' (next a) b) :
    Codes limit (m + n) (write >>= fun _ => write') (read >>= next) b := by
  obtain ⟨enc, hm, hw, hr⟩ := h
  obtain ⟨enc', hn, hw', hr'⟩ := h'
  refine ⟨enc ++ enc', ?_, hw.bind hw', hr.bind hr'⟩
  rw [List.length_append]
  exact Nat.add_le_add hm hn

theorem Codes.finish (h : Codes limit n write read a) (hnext : ∀ c, next a c = .ok b c) :
    Codes limit n write (read >>= next) b := by
  obtain ⟨enc, hn, hw, hr⟩ := h
  refine ⟨enc, hn, hw, fun front rest hlt => ?_⟩
  rw [bind_of_ok (hr front rest hlt), hnext]

theorem Codes.mono (h : Codes limit n write read a) (hm : m ≤ n) : Codes limit m write read a := by
  obtain ⟨enc, hn, hwr⟩ := h
  exact ⟨enc, hm.trans hn, hwr⟩

theorem Codes.field (h : Codes limit n write read a) (h' : Codes limit n write' (next a) b) :
    Codes limit n (write >>= fun _ => write') (read >>= next) b :=
  (h.bind h').mono (Nat.le_add_right n n)

def readTimes (read : EStateM ε (Cursor τ) α) : Nat → EStateM ε (Cursor τ) (List α)
  | 0 => Pure.pure []
  | rounds + 1 => do
      let a ← read
      let rest ← readTimes read rounds
      Pure.pure (a :: rest)

def writeEach (write : α → EStateM ε (List τ) Unit) : List α → EStateM ε (List τ) Unit
  | [] => Pure.pure ()
  | a :: rest => do
      write a
      writeEach write rest

/-- A list whose items all take up at least one token. -/
theorem Codes.each {write : α → EStateM ε (List τ) Unit} (xs : List α)
    (h : ∀ a ∈ xs, Codes limit 1 (write a) read a) :
    Codes limit xs.length (writeEach write xs) (readTimes read xs.length) xs := by
  induction xs with
  | nil => exact Codes.pure limit []
  | cons a xs ih =>
      obtain ⟨ha, hxs⟩ := List.forall_mem_cons.mp h
      have hrest : Codes limit (1 + xs.length) (writeEach write (a :: xs))
          (readTimes read (xs.length + 1)) (a :: xs) := by
        refine ha.bind ?_
        exact (ih hxs).finish fun _ => rfl
      exact hrest.mono (Nat.add_comm xs.length 1).le

def Gives (read : EStateM ε (Cursor τ) α) (good : α → Prop) : Prop := ∀ c a c', read c = .ok a c' → good a

theorem Gives.pure {good : α → Prop} {a : α} (h : good a) : Gives (Pure.pure a : EStateM ε (Cursor τ) α) good := by
  intro c b c' hb
  obtain ⟨rfl, -⟩ := EStateM.Result.ok.inj hb
  exact h

theorem Gives.bind {read : EStateM ε (Cursor τ) α} {next : α → EStateM ε (Cursor τ) β} {good : α → Prop}
    {good' : β → Prop} (h : Gives read good) (hnext : ∀ a, good a → Gives (next a) good') :
    Gives (read >>= next) good' := by
  intro c b c' hb
  change EStateM.bind read next c = _ at hb
  rw [EStateM.bind] at hb
  cases hread : read c with
  | ok a d =>
      rw [hread] at hb
      exact hnext a (h c a d hread) d b c' hb
  | error e d =>
      rw [hread] at hb
      cases hb

theorem Gives.skip {read : EStateM ε (Cursor τ) α} {next : α → EStateM ε (Cursor τ) β} {good : β → Prop}
    (hnext : ∀ a, Gives (next a) good) : Gives (read >>= next) good :=
  Gives.bind (fun _ _ _ _ => trivial) fun a _ => hnext a

theorem Gives.times {read : EStateM ε (Cursor τ) α} {good : α → Prop} (h : Gives read good) (rounds : Nat) :
    Gives (readTimes read rounds) fun xs => ∀ a ∈ xs, good a := by
  induction rounds with
  | zero => exact Gives.pure fun _ ha => absurd ha List.not_mem_nil
  | succ rounds ih =>
      exact h.bind fun a ha => ih.bind fun xs hxs => Gives.pure (List.forall_mem_cons.mpr ⟨ha, hxs⟩)

theorem ok_of_bind {σ : Type} {x : EStateM ε σ α} {f : α → EStateM ε σ β} {s u : σ} {b : β}
    (h : (x >>= f) s = .ok b u) : ∃ a t, x s = .ok a t ∧ f a t = .ok b u := by
  change EStateM.bind x f s = _ at h
  rw [EStateM.bind] at h
  cases hx : x s with
  | ok a t =>
      rw [hx] at h
      exact ⟨a, t, rfl, h⟩
  | error e t =>
      rw [hx] at h
      cases h

/-- A reader that does not look behind what it reads: whatever is added there, it ends in the same place. -/
def Local (read : EStateM ε (Cursor τ) α) : Prop :=
  ∀ items rest position a c, read ⟨items, position⟩ = .ok a c →
    c.items = items ∧ read ⟨items ++ rest, position⟩ = .ok a ⟨items ++ rest, c.position⟩

theorem Local.pure (a : α) : Local (Pure.pure a : EStateM ε (Cursor τ) α) := by
  intro items rest position b c h
  obtain ⟨rfl, rfl⟩ := EStateM.Result.ok.inj h
  exact ⟨rfl, rfl⟩

theorem Local.throw (e : ε) : Local (MonadExcept.throw e : EStateM ε (Cursor τ) α) := by
  intro items rest position b c h
  cases h

theorem Local.bind {read : EStateM ε (Cursor τ) α} {next : α → EStateM ε (Cursor τ) β} (h : Local read)
    (hnext : ∀ a, Local (next a)) : Local (read >>= next) := by
  intro items rest position b c hb
  obtain ⟨a, ⟨middle, reached⟩, hread, hrest⟩ := ok_of_bind hb
  obtain ⟨rfl, hread⟩ := h items rest position a _ hread
  obtain ⟨hitems, hrest⟩ := hnext a _ rest reached b c hrest
  exact ⟨hitems, (bind_of_ok hread).trans hrest⟩

theorem Local.ite {c : Prop} [Decidable c] {read read' : EStateM ε (Cursor τ) α} (h : Local read) (h' : Local read') :
    Local (if c then read else read') := by
  split
  next => exact h
  next => exact h'

theorem Local.times {read : EStateM ε (Cursor τ) α} (h : Local read) (rounds : Nat) :
    Local (readTimes read rounds) := by
  induction rounds with
  | zero => exact Local.pure []
  | succ rounds ih => exact h.bind fun a => ih.bind fun xs => Local.pure (a :: xs)

/-- In a sequence shorter than the limit, the reader leaves the sequence alone, and fails in no bad way. -/
def Steady (limit : Nat) (bad : ε → Prop) (read : EStateM ε (Cursor τ) α) (good : α → Prop) : Prop :=
  ∀ c, c.items.length < limit → Ends (fun a d => d.items = c.items ∧ good a) (fun e _ => ¬ bad e) (read c)

section Steady

variable {bad : ε → Prop} {good : α → Prop} {good' : β → Prop}

theorem Steady.pure (h : good a) : Steady limit bad (Pure.pure a : EStateM ε (Cursor τ) α) good := fun _ _ => ⟨rfl, h⟩

theorem Steady.throw {e : ε} (h : ¬ bad e) : Steady limit bad (MonadExcept.throw e : EStateM ε (Cursor τ) α) good :=
  fun _ _ => h

theorem Steady.bind (h : Steady limit bad read good) (hnext : ∀ a, good a → Steady limit bad (next a) good') :
    Steady limit bad (read >>= next) good' := by
  refine fun c hc => (h c hc).bind fun a d had => ?_
  obtain ⟨hitems, ha⟩ := had
  rw [← hitems] at hc ⊢
  exact hnext a ha d hc

theorem Steady.mono {good' : α → Prop} (h : Steady limit bad read good) (hgood : ∀ a, good a → good' a) :
    Steady limit bad read good' := fun c hc => (h c hc).mono (fun a _ ha => ⟨ha.1, hgood a ha.2⟩) fun _ _ he => he

theorem Steady.field (h : Steady limit bad read good) (hnext : ∀ a, Steady limit bad (next a) good') :
    Steady limit bad (read >>= next) good' := h.bind fun a _ => hnext a

theorem Steady.times (h : Steady limit bad read good) (rounds : Nat) :
    Steady limit bad (readTimes read rounds) fun xs => xs.length = rounds := by
  induction rounds with
  | zero => exact Steady.pure rfl
  | succ rounds ih => exact h.field fun a => ih.bind fun xs hxs => Steady.pure (congrArg Nat.succ hxs)

end Steady

/-- What the writer has written for a value, the reader takes for no other one and ends behind it, if it takes it. -/
def Tells (limit : Nat) (write : EStateM ε (List τ) Unit) (read : EStateM ε (Cursor τ) α) (a : α) : Prop :=
  ∀ start out, write start = .ok () out → ∃ enc, out = start ++ enc ∧
    ∀ front rest b c, front.length + enc.length + rest.length < limit →
      read ⟨front ++ enc ++ rest, front.length⟩ = .ok b c →
      b = a ∧ c = ⟨front ++ enc ++ rest, front.length + enc.length⟩

theorem Codes.tells (h : Codes limit n write read a) : Tells limit write read a := by
  obtain ⟨enc, -, hw, hr⟩ := h
  intro start out hout
  obtain ⟨-, rfl⟩ := EStateM.Result.ok.inj ((hw start).symm.trans hout)
  refine ⟨enc, rfl, fun front rest b c hlt hread => ?_⟩
  obtain ⟨rfl, rfl⟩ := EStateM.Result.ok.inj ((hr front rest hlt).symm.trans hread)
  exact ⟨rfl, rfl⟩

theorem Tells.bind (h : Tells limit write read a) (h' : Tells limit write' (next a) b) :
    Tells limit (write >>= fun _ => write') (read >>= next) b := by
  intro start out hout
  obtain ⟨⟨⟩, middle, hmiddle, hout⟩ := ok_of_bind hout
  obtain ⟨enc, rfl, hread⟩ := h start middle hmiddle
  obtain ⟨enc', rfl, hnext⟩ := h' _ out hout
  refine ⟨enc ++ enc', List.append_assoc _ _ _, fun front rest x c hlt hx => ?_⟩
  have hitems : front ++ (enc ++ enc') ++ rest = front ++ enc ++ (enc' ++ rest) := by simp only [List.append_assoc]
  have hwhole : front ++ enc ++ enc' ++ rest = front ++ enc ++ (enc' ++ rest) := by simp only [List.append_assoc]
  rw [hitems] at hx
  rw [List.length_append] at hlt
  obtain ⟨y, d, hy, hx⟩ := ok_of_bind hx
  obtain ⟨rfl, rfl⟩ := hread front (enc' ++ rest) y d (by rw [List.length_append]; omega) hy
  rw [← hwhole, ← List.length_append] at hx
  obtain ⟨rfl, rfl⟩ := hnext (front ++ enc) rest x c (by rw [List.length_append]; omega) hx
  rw [hwhole, hitems, List.length_append, List.length_append, Nat.add_assoc]
  exact ⟨rfl, rfl⟩

theorem Tells.finish (h : Tells limit write read a) (hnext : ∀ c x c', next a c = .ok x c' → x = b ∧ c' = c) :
    Tells limit write (read >>= next) b := by
  intro start out hout
  obtain ⟨enc, rfl, hread⟩ := h start out hout
  refine ⟨enc, rfl, fun front rest x c hlt hx => ?_⟩
  obtain ⟨y, d, hy, hx⟩ := ok_of_bind hx
  obtain ⟨rfl, rfl⟩ := hread front rest y d hlt hy
  exact hnext _ x c hx

theorem Tells.each {write : α → EStateM ε (List τ) Unit} (xs : List α) (h : ∀ a ∈ xs, Tells limit (write a) read a) :
    Tells limit (writeEach write xs) (readTimes read xs.length) xs := by
  induction xs with
  | nil => exact (Codes.pure limit []).tells
  | cons a xs ih =>
      obtain ⟨ha, hxs⟩ := List.forall_mem_cons.mp h
      refine ha.bind ((ih hxs).finish fun c x c' hx => ?_)
      obtain ⟨rfl, rfl⟩ := EStateM.Result.ok.inj hx
      exact ⟨rfl, rfl⟩

/-- In a sequence that is not longer than the bound, the reader takes in at least as much as an encoding of what it
gives. The specification says which lists are encodings of a value. -/
def Covers (bound : Nat) (read : EStateM ε (Cursor τ) α) (spec : α → List τ → Prop) : Prop :=
  ∀ c a c', c.items.length ≤ bound → read c = .ok a c' →
    c'.items = c.items ∧ ∃ enc, spec a enc ∧ c.position + enc.length ≤ c'.position

variable {bound : Nat} {spec : α → List τ → Prop} {spec' : β → List τ → Prop}

theorem Covers.pure (h : spec a []) : Covers bound (Pure.pure a : EStateM ε (Cursor τ) α) spec := by
  intro c b c' _ hb
  obtain ⟨rfl, rfl⟩ := EStateM.Result.ok.inj hb
  exact ⟨rfl, [], h, le_rfl⟩

theorem Covers.throw (e : ε) : Covers bound (MonadExcept.throw e : EStateM ε (Cursor τ) α) spec := by
  intro c b c' _ hb
  cases hb

theorem Covers.shorten {spec' : α → List τ → Prop} (h : Covers bound read spec)
    (hspec : ∀ a enc, spec a enc → ∃ enc', enc'.length ≤ enc.length ∧ spec' a enc') : Covers bound read spec' := by
  intro c a c' hc hr
  obtain ⟨hitems, enc, henc, hle⟩ := h c a c' hc hr
  obtain ⟨enc', hshort, henc'⟩ := hspec a enc henc
  exact ⟨hitems, enc', henc', (Nat.add_le_add_left hshort _).trans hle⟩

theorem Covers.mono {spec' : α → List τ → Prop} (h : Covers bound read spec)
    (hspec : ∀ a enc, spec a enc → spec' a enc) :
    Covers bound read spec' := h.shorten fun a enc henc => ⟨enc, le_rfl, hspec a enc henc⟩

/-- What follows a field has to complete its encoding. -/
theorem Covers.bind (h : Covers bound read spec)
    (hnext : ∀ a enc, spec a enc → Covers bound (next a) fun b enc' => spec' b (enc ++ enc')) :
    Covers bound (read >>= next) spec' := by
  intro c b c' hc hb
  obtain ⟨a, d, hread, hb⟩ := ok_of_bind hb
  obtain ⟨hitems, enc, henc, hle⟩ := h c a d hc hread
  obtain ⟨hitems', enc', henc', hle'⟩ := hnext a enc henc d b c' (by rwa [hitems]) hb
  refine ⟨hitems'.trans hitems, enc ++ enc', henc', ?_⟩
  rw [List.length_append]
  omega

theorem writes_nil : Writes (Pure.pure () : EStateM ε (List τ) Unit) [] := fun front => by
  rw [List.append_nil]
  rfl

theorem writes_unique {enc enc' : List τ} (h : Writes write enc) (h' : Writes write enc') : enc = enc' :=
  (EStateM.Result.ok.inj ((h []).symm.trans (h' []))).2

theorem writes_each {write : α → EStateM ε (List τ) Unit} {encode : α → List τ} {xs : List α}
    (h : ∀ x ∈ xs, Writes (write x) (encode x)) : Writes (writeEach write xs) (xs.flatMap encode) := by
  induction xs with
  | nil => exact writes_nil
  | cons x xs ih =>
      obtain ⟨hx, hxs⟩ := List.forall_mem_cons.mp h
      exact hx.bind (ih hxs)

theorem writes_each_perm {write : α → EStateM ε (List τ) Unit} {xs ys : List α} {enc : List τ} (hperm : xs.Perm ys)
    (h : ∀ x ∈ xs, ∃ enc, Writes (write x) enc) (henc : Writes (writeEach write xs) enc) :
    ∃ enc', enc'.length = enc.length ∧ Writes (writeEach write ys) enc' := by
  choose! encode hencode using h
  refine ⟨ys.flatMap encode, ?_, writes_each fun y hy => hencode y (hperm.mem_iff.mpr hy)⟩
  rw [writes_unique henc (writes_each hencode)]
  exact (hperm.symm.flatMap_right encode).length_eq

theorem Covers.times {good : α → Prop} {write : α → EStateM ε (List τ) Unit}
    (h : Covers bound read fun a enc => good a ∧ Writes (write a) enc) (rounds : Nat) :
    Covers bound (readTimes read rounds) fun xs enc =>
      xs.length = rounds ∧ (∀ a ∈ xs, good a) ∧ Writes (writeEach write xs) enc := by
  induction rounds with
  | zero => exact Covers.pure ⟨rfl, fun _ ha => absurd ha List.not_mem_nil, writes_nil⟩
  | succ rounds ih =>
      refine h.bind fun a enc ha => ih.bind fun xs enc' hxs => Covers.pure ⟨?_, ?_, ?_⟩
      · rw [List.length_cons, hxs.1]
      · exact List.forall_mem_cons.mpr ⟨ha.1, hxs.2.1⟩
      · rw [List.append_nil]
        exact ha.2.bind hxs.2.2

end Format
