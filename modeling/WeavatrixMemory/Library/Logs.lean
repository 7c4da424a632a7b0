import Mathlib.Logic.Basic
import Mathlib.Order.Basic

namespace Logs

variable {σ α ε : Type} {next : List α → α → Prop}

/-- The entries can follow the log, each of them as `next` allows it. -/
def Grows (next : List α → α → Prop) : List α → List α → Prop
  | _, [] => True
  | log, a :: rest => next log a ∧ Grows next (log ++ [a]) rest

/-- A log each of whose entries was allowed when it came. -/
def Lawful (next : List α → α → Prop) (log : List α) : Prop := Grows next [] log

theorem grows_append {log xs ys : List α} :
    Grows next log (xs ++ ys) ↔ Grows next log xs ∧ Grows next (log ++ xs) ys := by
  induction xs generalizing log with
  | nil => simp [Grows]
  | cons a xs ih =>
      rw [List.cons_append, Grows, Grows, ih, List.append_assoc, List.singleton_append, and_assoc]

theorem lawful_append {log xs : List α} :
    Lawful next (log ++ xs) ↔ Lawful next log ∧ Grows next log xs := grows_append

theorem grows_singleton {log : List α} {a : α} : Grows next log [a] ↔ next log a := iff_of_eq (and_true _)

theorem lawful_nil : Lawful next ([] : List α) := trivial

theorem Lawful.snoc {log : List α} {a : α} (h : Lawful next log) (ha : next log a) :
    Lawful next (log ++ [a]) := lawful_append.mpr ⟨h, grows_singleton.mpr ha⟩

/-- Induction along a lawful log. -/
theorem Lawful.induction {motive : List α → Prop} {log : List α} (h : Lawful next log) (nil : motive [])
    (snoc : ∀ log a, Lawful next log → next log a → motive log → motive (log ++ [a])) : motive log := by
  suffices hs : ∀ before, Lawful next before → motive before → ∀ rest, Grows next before rest →
      motive (before ++ rest) from hs [] lawful_nil nil log h
  intro before hb hm rest hr
  induction rest generalizing before with
  | nil => rwa [List.append_nil]
  | cons a rest ih =>
      have hrest := ih (before ++ [a]) (hb.snoc hr.1) (snoc before a hb hr.1 hm) hr.2
      rwa [List.append_assoc, List.singleton_append] at hrest

/-- A loop whose steps accept what `next` allows, and keep the state that belongs to the log. -/
theorem foldlM_eq_ok {step : σ → α → Except ε σ} {state : List α → σ}
    (hstep : ∀ log a t, Lawful next log →
      (step (state log) a = .ok t ↔ next log a ∧ t = state (log ++ [a])))
    {log xs : List α} (h : Lawful next log) {t : σ} :
    xs.foldlM step (state log) = .ok t ↔ Grows next log xs ∧ t = state (log ++ xs) := by
  induction xs generalizing log with
  | nil =>
      rw [List.foldlM_nil, List.append_nil]
      apply Iff.trans (Iff.of_eq (Except.ok.injEq _ _))
      exact ⟨fun h => ⟨trivial, h.symm⟩, fun h => h.2.symm⟩
  | cons a xs ih =>
      rw [List.foldlM_cons, Grows]
      cases hs : step (state log) a with
      | error e =>
          have hno : ¬ next log a := by
            intro ha
            have hok := (hstep log a _ h).mpr ⟨ha, rfl⟩
            rw [hs] at hok
            cases hok
          constructor
          · intro hf
            cases hf
          · intro hf
            exact absurd hf.1.1 hno
      | ok s =>
          obtain ⟨ha, hstate⟩ := (hstep log a s h).mp hs
          have hrest := ih (h.snoc ha)
          rw [List.append_assoc, List.singleton_append] at hrest
          rw [hstate]
          apply hrest.trans
          rw [and_iff_right ha]

end Logs
