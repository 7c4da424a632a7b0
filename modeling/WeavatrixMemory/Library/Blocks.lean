import Mathlib.Algebra.Order.Ring.Nat
import Mathlib.Data.List.Forall2
import Mathlib.Tactic.Common

namespace Blocks

open List

variable {τ α ε : Type}

inductive Round (α : Type)
  | complete
  | torn
  | block (a : α) (length : Nat)

/-- What the scan of a sequence finds: its blocks, where the last of them ends, and whether the
sequence ends there too. -/
structure Scanned (α : Type) where
  blocks : List α
  durable : Nat
  complete : Bool

def Scanned.behind (s : Scanned α) (earlier : List α) : Scanned α := { s with blocks := earlier ++ s.blocks }

inductive Scan (read : Nat → List τ → Except ε (Round α)) : Nat → List τ → Except ε (Scanned α) → Prop
  | complete {offset : Nat} {rest : List τ} :
      read offset rest = .ok .complete → Scan read offset rest (.ok ⟨[], offset, true⟩)
  | torn {offset : Nat} {rest : List τ} :
      read offset rest = .ok .torn → Scan read offset rest (.ok ⟨[], offset, false⟩)
  | failed {offset : Nat} {rest : List τ} {e : ε} :
      read offset rest = .error e → Scan read offset rest (.error e)
  | block {offset length : Nat} {rest : List τ} {a : α} {r : Except ε (Scanned α)} :
      read offset rest = .ok (.block a length) → Scan read (offset + length) (rest.drop length) r →
      Scan read offset rest (r.map (·.behind [a]))

/-- A reader of blocks that tell their own length, so that a torn block is seen to be one. -/
structure Framing (read : Nat → List τ → Except ε (Round α)) (Block : List τ → α → Prop) : Prop where
  nonempty : ∀ {xs a}, Block xs a → xs ≠ []
  complete : ∀ {offset rest}, read offset rest = .ok .complete ↔ rest = []
  whole : ∀ {xs a} offset rest, Block xs a → read offset (xs ++ rest) = .ok (.block a xs.length)
  torn : ∀ {xs a part} offset, Block xs a → part <+: xs → part ≠ xs → part ≠ [] →
    read offset part = .ok .torn
  sound : ∀ {offset rest a length}, read offset rest = .ok (.block a length) →
    Block (rest.take length) a ∧ length ≤ rest.length

variable {read : Nat → List τ → Except ε (Round α)} {Block : List τ → α → Prop}

theorem Scan.unique {offset : Nat} {rest : List τ} {r r' : Except ε (Scanned α)} (h : Scan read offset rest r)
    (h' : Scan read offset rest r') : r = r' := by
  induction h generalizing r' with
  | complete hr => cases h' <;> simp_all
  | torn hr => cases h' <;> simp_all
  | failed hr => cases h' <;> simp_all
  | block hr _ ih =>
      cases h' with
      | complete hr' => simp [hr] at hr'
      | torn hr' => simp [hr] at hr'
      | failed hr' => simp [hr] at hr'
      | block hr' hs' =>
          obtain ⟨rfl, rfl⟩ : _ ∧ _ := by simpa [hr] using hr'
          rw [ih hs']

theorem exists_blocks {xss : List (List τ)} (h : ∀ xs ∈ xss, ∃ a, Block xs a) :
    ∃ as, Forall₂ Block xss as := by
  induction xss with
  | nil => exact ⟨[], .nil⟩
  | cons xs xss ih =>
      obtain ⟨⟨a, ha⟩, hrest⟩ := List.forall_mem_cons.mp h
      obtain ⟨as, has⟩ := ih hrest
      exact ⟨a :: as, .cons ha has⟩

variable (framing : Framing read Block)

include framing

theorem scan_block {offset : Nat} {xs rest : List τ} {a : α} {r : Except ε (Scanned α)} (h : Block xs a)
    (hs : Scan read (offset + xs.length) rest r) : Scan read offset (xs ++ rest) (r.map (·.behind [a])) := by
  apply Scan.block (framing.whole offset rest h)
  rwa [List.drop_left]

theorem scan_blocks {xss : List (List τ)} {as : List α} (h : Forall₂ Block xss as) {offset : Nat}
    {rest : List τ} {r : Except ε (Scanned α)} (hs : Scan read (offset + xss.flatten.length) rest r) :
    Scan read offset (xss.flatten ++ rest) (r.map (·.behind as)) := by
  induction h generalizing offset with
  | nil =>
      have hr : r.map (·.behind []) = r := by cases r <;> rfl
      rw [hr]
      exact hs
  | @cons xs a xss as hb _ ih =>
      have hr : (r.map (·.behind as)).map (·.behind [a]) = r.map (·.behind (a :: as)) := by cases r <;> rfl
      rw [List.flatten_cons, List.append_assoc, ← hr]
      apply scan_block framing hb
      apply ih
      rwa [List.flatten_cons, List.length_append, ← Nat.add_assoc] at hs

theorem scan_part {xs part : List τ} {a : α} (h : Block xs a) (hp : part <+: xs) (hne : part ≠ xs)
    (offset : Nat) : Scan read offset part (.ok ⟨[], offset, part.isEmpty⟩) := by
  by_cases he : part = []
  · subst he
    exact .complete (framing.complete.mpr rfl)
  · have hr : part.isEmpty = false := by simpa using he
    rw [hr]
    exact .torn (framing.torn offset h hp hne he)

/-- Cut anywhere, a sequence of blocks scans as the blocks before the cut. -/
theorem scan_take {xss : List (List τ)} {as : List α} (h : Forall₂ Block xss as) {cut : Nat}
    (hc : cut ≤ xss.flatten.length) (offset : Nat) :
    ∃ n, Scan read offset (xss.flatten.take cut) (.ok ⟨as.take n, offset + (xss.take n).flatten.length,
        decide (cut = (xss.take n).flatten.length)⟩) ∧
      ∀ i < xss.length, i < n ↔ (xss.take (i + 1)).flatten.length ≤ cut := by
  induction h generalizing cut offset with
  | nil =>
      rw [List.flatten_nil, List.length_nil, Nat.le_zero] at hc
      subst hc
      refine ⟨0, ?_, fun i hi => absurd hi (Nat.not_lt_zero i)⟩
      exact .complete (framing.complete.mpr rfl)
  | @cons xs a xss as hb _ ih =>
      rw [List.flatten_cons, List.length_append] at hc
      by_cases hw : xs.length ≤ cut
      · obtain ⟨n, hs, hn⟩ := @ih (cut - xs.length) (by omega) (offset + xs.length)
        refine ⟨n + 1, ?_, fun i hi => ?_⟩
        · have hscan := scan_block framing hb hs
          rw [List.flatten_cons, List.take_append, List.take_of_length_le hw, List.take_succ_cons,
            List.take_succ_cons, List.flatten_cons, List.length_append, ← Nat.add_assoc]
          have hcut : (cut - xs.length = (xss.take n).flatten.length) =
              (cut = xs.length + (xss.take n).flatten.length) := by
            apply propext
            omega
          simp only [hcut] at hscan
          exact hscan
        · rw [List.take_succ_cons, List.flatten_cons, List.length_append]
          cases i with
          | zero => simp [hw]
          | succ i =>
              have hrest := hn i (Nat.lt_of_succ_lt_succ hi)
              omega
      · refine ⟨0, ?_, fun i hi => ?_⟩
        · have hpart := scan_part framing hb (List.take_prefix cut xs) (fun heq => hw ?_) offset
          · rw [List.flatten_cons, List.take_append_of_le_length (by omega)]
            have hempty : (xs.take cut).isEmpty = decide (cut = 0) := by
              rw [Bool.eq_iff_iff, List.isEmpty_iff, List.take_eq_nil_iff, decide_eq_true_iff]
              exact or_iff_left (framing.nonempty hb)
            rw [hempty] at hpart
            exact hpart
          · rw [← heq]
            exact List.length_take_le cut xs
        · rw [List.take_succ_cons, List.flatten_cons, List.length_append]
          omega

theorem scan_ok {offset : Nat} {rest : List τ} {s : Scanned α} (h : Scan read offset rest (.ok s)) :
    ∃ xss tail, rest = xss.flatten ++ tail ∧ Forall₂ Block xss s.blocks ∧
      s.durable = offset + xss.flatten.length ∧ (s.complete = true ↔ tail = []) := by
  generalize hr : (Except.ok s : Except ε (Scanned α)) = r at h
  induction h generalizing s with
  | complete hread =>
      cases hr
      exact ⟨[], [], framing.complete.mp hread, .nil, rfl, iff_of_true rfl rfl⟩
  | @torn offset rest hread =>
      cases hr
      refine ⟨[], rest, rfl, .nil, rfl, iff_of_false Bool.false_ne_true fun he => ?_⟩
      rw [framing.complete.mpr he] at hread
      cases hread
  | failed => cases hr
  | @block offset length rest a r hread _ ih =>
      cases r with
      | error e => cases hr
      | ok s' =>
          obtain ⟨hb, hle⟩ := framing.sound hread
          obtain ⟨xss, tail, hrest, hblocks, hdurable, hcomplete⟩ := ih rfl
          cases hr
          refine ⟨rest.take length :: xss, tail, ?_, .cons hb hblocks, ?_, hcomplete⟩
          · rw [List.flatten_cons, List.append_assoc, ← hrest, List.take_append_drop]
          · change s'.durable = _
            rw [hdurable, List.flatten_cons, List.length_append, List.length_take, Nat.min_eq_left hle,
              Nat.add_assoc]

theorem scan_refused {Refusal : ε → Prop} {xss : List (List τ)}
    (h : ∀ xs ∈ xss, (∃ a, Block xs a) ∨ ∀ offset rest, ∃ e, Refusal e ∧ read offset (xs ++ rest) = .error e)
    (hno : ¬ ∀ xs ∈ xss, ∃ a, Block xs a) (offset : Nat) (rest : List τ) :
    ∃ e, Refusal e ∧ Scan read offset (xss.flatten ++ rest) (.error e) := by
  induction xss generalizing offset with
  | nil => exact absurd (fun xs hxs => absurd hxs List.not_mem_nil) hno
  | cons xs xss ih =>
      obtain ⟨hxs, hxss⟩ := List.forall_mem_cons.mp h
      rw [List.flatten_cons, List.append_assoc]
      obtain ⟨a, ha⟩ | hrefused := hxs
      · have hlater : ¬ ∀ xs ∈ xss, ∃ a, Block xs a := fun hall => hno (List.forall_mem_cons.mpr ⟨⟨a, ha⟩, hall⟩)
        obtain ⟨e, he, hscan⟩ := ih hxss hlater (offset + xs.length)
        exact ⟨e, he, scan_block framing ha hscan⟩
      · obtain ⟨e, he, hread⟩ := hrefused offset (xss.flatten ++ rest)
        exact ⟨e, he, .failed hread⟩

theorem scan_durable_le {offset : Nat} {rest : List τ} {s : Scanned α} (h : Scan read offset rest (.ok s)) :
    s.durable ≤ offset + rest.length := by
  obtain ⟨xss, tail, hrest, -, hdurable, -⟩ := scan_ok framing h
  rw [hdurable, hrest, List.length_append]
  omega

end Blocks
