import Mathlib.Data.List.Induction
import Mathlib.Data.List.Nodup
import WeavatrixMemory.Library.Latest

namespace Bitemporal

open Latest

/-- Values are written for entities, facts are asserted, and the end of a fact's validity is moved. -/
inductive Entry (ε ν φ ι τ : Type)
  | wrote (entity : ε) (value : ν) (recorded : τ)
  | asserted (fact : φ)
  | withdrew (id : ι) (ends : τ) (recorded : τ)

structure Reading (ε φ ι τ : Type) where
  id : φ → ι
  source : φ → ε
  target : φ → ε
  recorded : φ → τ
  begins : φ → τ
  ends : φ → Option τ
  replaces : φ → Option ι

structure Write (ε ν τ : Type) where
  entity : ε
  value : ν
  recorded : τ

structure Withdrawal (τ : Type) where
  ends : τ
  recorded : τ

/-- The time that is asked about, and the time up to which recordings count. -/
structure Clock (τ : Type) where
  valid : τ
  known : τ

structure State (ν φ : Type) where
  values : List ν
  facts : List φ

variable {ε ν φ ι τ σ α : Type}

def Entry.write : Entry ε ν φ ι τ → Option (Write ε ν τ)
  | .wrote entity value recorded => some ⟨entity, value, recorded⟩
  | _ => none

def Entry.fact : Entry ε ν φ ι τ → Option φ
  | .asserted fact => some fact
  | _ => none

def Entry.withdrawal [DecidableEq ι] (id : ι) : Entry ε ν φ ι τ → Option (Withdrawal τ)
  | .withdrew other ends recorded => if other = id then some ⟨ends, recorded⟩ else none
  | _ => none

def writes (ledger : List (Entry ε ν φ ι τ)) : List (Write ε ν τ) := ledger.filterMap Entry.write

def facts (ledger : List (Entry ε ν φ ι τ)) : List φ := ledger.filterMap Entry.fact

def entities [DecidableEq ε] (ledger : List (Entry ε ν φ ι τ)) : List ε := ((writes ledger).map Write.entity).eraseDups

def valueAt [DecidableEq ε] [LinearOrder τ] (ledger : List (Entry ε ν φ ι τ)) (known : τ) (entity : ε) : Option ν :=
  (newest Write.recorded ((writes ledger).filter fun write => write.entity = entity ∧ write.recorded ≤ known)).map
    Write.value

def withdrawalOf [DecidableEq ι] (ledger : List (Entry ε ν φ ι τ)) (id : ι) : Option (Withdrawal τ) :=
  (ledger.filterMap (Entry.withdrawal id)).getLast?

/-- A fact counts if it is known and valid, nothing known replaces it or ends it, and it is about known entities. -/
structure Current [DecidableEq ε] [DecidableEq ι] [LinearOrder τ] (r : Reading ε φ ι τ)
    (ledger : List (Entry ε ν φ ι τ)) (clock : Clock τ) (fact : φ) : Prop where
  known : r.recorded fact ≤ clock.known
  begun : r.begins fact ≤ clock.valid
  lasts : ∀ ends, r.ends fact = some ends → clock.valid < ends
  unreplaced : ∀ other ∈ facts ledger, r.replaces other = some (r.id fact) →
    clock.known < r.recorded other ∨ clock.valid < r.begins other
  kept : ∀ withdrawal, withdrawalOf ledger (r.id fact) = some withdrawal →
    clock.known < withdrawal.recorded ∨ clock.valid < withdrawal.ends
  source : (valueAt ledger clock.known (r.source fact)).isSome = true
  target : (valueAt ledger clock.known (r.target fact)).isSome = true

open Classical in
/-- What a ledger says at a clock. -/
noncomputable def stateAt [DecidableEq ε] [DecidableEq ι] [LinearOrder τ] (r : Reading ε φ ι τ)
    (ledger : List (Entry ε ν φ ι τ)) (clock : Clock τ) : State ν φ where
  values := (entities ledger).filterMap (valueAt ledger clock.known)
  facts := (facts ledger).filter fun fact => Current r ledger clock fact

theorem nodup_eraseDups [DecidableEq α] (xs : List α) : xs.eraseDups.Nodup := by
  induction xs using List.reverseRecOn with
  | nil => exact List.nodup_nil
  | append_singleton xs x ih =>
      rw [List.eraseDups_append]
      by_cases h : x ∈ xs
      · rw [List.removeAll, List.filter_singleton, List.elem_eq_mem, decide_eq_true h]
        rwa [show (bif !true then [x] else []) = [] from rfl, List.eraseDups_nil, List.append_nil]
      · rw [List.removeAll, List.filter_singleton, List.elem_eq_mem, decide_eq_false h]
        refine List.nodup_append.mpr ⟨ih, List.nodup_singleton x, fun a ha b hb => ?_⟩
        obtain rfl := List.mem_singleton.mp hb
        rintro rfl
        exact h (List.mem_eraseDups.mp ha)

theorem eraseDups_snoc [DecidableEq α] (xs : List α) (x : α) :
    (xs ++ [x]).eraseDups = if x ∈ xs then xs.eraseDups else xs.eraseDups ++ [x] := by
  rw [List.eraseDups_append, List.removeAll, List.filter_singleton, List.elem_eq_mem]
  by_cases h : x ∈ xs
  · rw [decide_eq_true h, if_pos h]
    exact List.append_nil _
  · rw [decide_eq_false h, if_neg h]
    rfl

/-- Two lists in which the elements of each tag come in the same order. -/
def Interleaved [DecidableEq σ] (tag : α → σ) (xs ys : List α) : Prop :=
  ∀ s, xs.filter (fun x => tag x = s) = ys.filter fun y => tag y = s

section Interleaved

variable [DecidableEq σ] {tag : α → σ} {xs ys : List α}

theorem Interleaved.mem_iff (h : Interleaved tag xs ys) {x : α} : x ∈ xs ↔ x ∈ ys := by
  have htag : x ∈ xs.filter (fun y => tag y = tag x) ↔ x ∈ ys.filter fun y => tag y = tag x := by rw [h (tag x)]
  simpa only [List.mem_filter, decide_true, and_true] using htag

theorem Interleaved.perm (h : Interleaved tag xs ys) : xs.Perm ys := by
  classical
  rw [List.perm_iff_count]
  intro x
  have hcount : ∀ zs : List α, (zs.filter fun y => tag y = tag x).count x = zs.count x := fun zs =>
    List.count_filter (decide_eq_true rfl)
  rw [← hcount xs, h (tag x), hcount ys]

theorem Interleaved.filter_eq (h : Interleaved tag xs ys) {keep : α → Bool}
    (hone : ∀ x ∈ xs, ∀ y ∈ xs, keep x = true → keep y = true → tag x = tag y) : xs.filter keep = ys.filter keep := by
  by_cases hnone : xs.filter keep = []
  · rw [hnone, eq_comm, List.filter_eq_nil_iff]
    exact fun y hy => List.filter_eq_nil_iff.mp hnone y (h.mem_iff.mpr hy)
  · obtain ⟨x, hx⟩ := List.exists_mem_of_ne_nil _ hnone
    obtain ⟨hx, hkeep⟩ := List.mem_filter.mp hx
    have htagged : ∀ zs : List α, (∀ z ∈ zs, z ∈ xs) →
        zs.filter keep = (zs.filter fun z => tag z = tag x).filter keep := by
      intro zs hzs
      rw [List.filter_filter]
      refine List.filter_congr fun z hz => ?_
      by_cases hk : keep z = true
      · rw [hk, decide_eq_true (hone z (hzs z hz) x hx hk hkeep)]
        rfl
      · rw [Bool.not_eq_true] at hk
        rw [hk, Bool.false_and]
    rw [htagged xs fun _ hz => hz, htagged ys fun _ hz => h.mem_iff.mpr hz, h]

theorem Interleaved.filterMap_eq (h : Interleaved tag xs ys) {β : Type} {f : α → Option β}
    (hone : ∀ x ∈ xs, ∀ y ∈ xs, (f x).isSome = true → (f y).isSome = true → tag x = tag y) :
    xs.filterMap f = ys.filterMap f := by
  have hfilter : ∀ zs : List α, zs.filterMap f = (zs.filter fun z => (f z).isSome).filterMap f := by
    intro zs
    rw [List.filterMap_filter]
    refine List.filterMap_congr fun z _ => ?_
    cases f z <;> rfl
  rw [hfilter xs, hfilter ys, h.filter_eq hone]

end Interleaved

/-- The entries of two ledgers are the same, and where the last of some counts, they come in the same order: the
writes of an entity at one time, and the withdrawals of a fact. -/
structure Reordered [DecidableEq ε] [DecidableEq ι] [LinearOrder τ] (ledger ledger' : List (Entry ε ν φ ι τ)) :
    Prop where
  perm : ledger.Perm ledger'
  written : ∀ entity time, (writes ledger).filter (fun write => write.entity = entity ∧ write.recorded = time) =
    (writes ledger').filter fun write => write.entity = entity ∧ write.recorded = time
  withdrawn : ∀ id, ledger.filterMap (Entry.withdrawal id) = ledger'.filterMap (Entry.withdrawal id)

section Reordered

variable [DecidableEq ε] [DecidableEq ι] [LinearOrder τ] {r : Reading ε φ ι τ} {ledger ledger' : List (Entry ε ν φ ι τ)}

theorem Reordered.symm (h : Reordered ledger ledger') : Reordered ledger' ledger :=
  ⟨h.perm.symm, fun entity time => (h.written entity time).symm, fun id => (h.withdrawn id).symm⟩

theorem Reordered.append_right (h : Reordered ledger ledger') (more : List (Entry ε ν φ ι τ)) :
    Reordered (ledger ++ more) (ledger' ++ more) := by
  refine ⟨h.perm.append_right more, fun entity time => ?_, fun id => ?_⟩
  · simp only [writes, List.filterMap_append, List.filter_append]
    exact congrArg (· ++ _) (h.written entity time)
  · rw [List.filterMap_append, List.filterMap_append, h.withdrawn id]

theorem Reordered.valueAt_eq (h : Reordered ledger ledger') (known : τ) (entity : ε) :
    valueAt ledger known entity = valueAt ledger' known entity := by
  have hfilter : ∀ (entries : List (Write ε ν τ)) (time : τ),
      (entries.filter fun write => write.entity = entity ∧ write.recorded ≤ known).filter
          (fun write => write.recorded = time) =
        (entries.filter fun write => write.entity = entity ∧ write.recorded = time).filter
          fun write => write.recorded ≤ known := by
    intro entries time
    rw [List.filter_filter, List.filter_filter]
    refine List.filter_congr fun write _ => ?_
    simp only [Bool.decide_and]
    ac_rfl
  rw [valueAt, valueAt]
  refine congrArg _ (newest_congr fun time => ?_)
  rw [hfilter, hfilter, h.written entity time]

theorem Reordered.facts_perm (h : Reordered ledger ledger') : (facts ledger).Perm (facts ledger') :=
  h.perm.filterMap Entry.fact

theorem Reordered.withdrawalOf_eq (h : Reordered ledger ledger') (id : ι) :
    withdrawalOf ledger id = withdrawalOf ledger' id := by rw [withdrawalOf, withdrawalOf, h.withdrawn id]

theorem Reordered.entities_perm (h : Reordered ledger ledger') : (entities ledger).Perm (entities ledger') := by
  refine (List.perm_ext_iff_of_nodup (nodup_eraseDups _) (nodup_eraseDups _)).mpr fun entity => ?_
  rw [List.mem_eraseDups, List.mem_eraseDups]
  exact ((h.perm.filterMap Entry.write).map Write.entity).mem_iff

theorem Reordered.current {clock : Clock τ} {fact : φ} (h : Reordered ledger ledger')
    (hc : Current r ledger clock fact) : Current r ledger' clock fact := by
  have hvalues : valueAt ledger clock.known = valueAt ledger' clock.known := funext (h.valueAt_eq clock.known)
  exact ⟨hc.known, hc.begun, hc.lasts, fun other ho => hc.unreplaced other (h.facts_perm.mem_iff.mpr ho),
    h.withdrawalOf_eq (r.id fact) ▸ hc.kept, hvalues ▸ hc.source, hvalues ▸ hc.target⟩

theorem Reordered.stateAt_perm (h : Reordered ledger ledger') (clock : Clock τ) :
    (stateAt r ledger clock).values.Perm (stateAt r ledger' clock).values ∧
      (stateAt r ledger clock).facts.Perm (stateAt r ledger' clock).facts := by
  classical
  have hvalues : valueAt ledger clock.known = valueAt ledger' clock.known := funext (h.valueAt_eq clock.known)
  constructor
  · rw [stateAt, stateAt, hvalues]
    exact h.entities_perm.filterMap _
  · have hsame : (facts ledger').filter (fun fact => Current r ledger' clock fact) =
        (facts ledger').filter fun fact => Current r ledger clock fact :=
      List.filter_congr fun fact _ => decide_eq_decide.mpr ⟨h.symm.current, h.current⟩
    rw [stateAt, stateAt, hsame]
    exact h.facts_perm.filter _

end Reordered

section Converge

variable {said said' : List (σ × Entry ε ν φ ι τ)}

def ledgerOf (said : List (σ × Entry ε ν φ ι τ)) : List (Entry ε ν φ ι τ) := said.map Prod.snd

/-- Writes of an entity at one time come from one source. -/
def WritesApart (said : List (σ × Entry ε ν φ ι τ)) : Prop :=
  ∀ a ∈ said, ∀ b ∈ said, ∀ write write', a.2.write = some write → b.2.write = some write' →
    write.entity = write'.entity → write.recorded = write'.recorded → a.1 = b.1

def WithdrawalsApart [DecidableEq ι] (said : List (σ × Entry ε ν φ ι τ)) : Prop :=
  ∀ a ∈ said, ∀ b ∈ said, ∀ id, (a.2.withdrawal id).isSome = true → (b.2.withdrawal id).isSome = true → a.1 = b.1

/-- In whatever order the entries of several sources come together, the ledger says the same. -/
theorem reordered_of_interleaved [DecidableEq σ] [DecidableEq ε] [DecidableEq ι] [LinearOrder τ]
    (h : Interleaved Prod.fst said said') (hwrites : WritesApart said) (hwithdrawals : WithdrawalsApart said) :
    Reordered (ledgerOf said) (ledgerOf said') := by
  refine ⟨h.perm.map Prod.snd, fun entity time => ?_, fun id => ?_⟩
  · simp only [writes, ledgerOf, List.filterMap_map, List.filter_filterMap]
    refine h.filterMap_eq fun a ha b hb hwrite hwrite' => ?_
    obtain ⟨write, hw⟩ := Option.isSome_iff_exists.mp hwrite
    obtain ⟨write', hw'⟩ := Option.isSome_iff_exists.mp hwrite'
    obtain ⟨hw, hkeep⟩ := Option.filter_eq_some_iff.mp hw
    obtain ⟨hw', hkeep'⟩ := Option.filter_eq_some_iff.mp hw'
    obtain ⟨hentity, htime⟩ := of_decide_eq_true hkeep
    obtain ⟨hentity', htime'⟩ := of_decide_eq_true hkeep'
    exact hwrites a ha b hb write write' hw hw' (hentity.trans hentity'.symm) (htime.trans htime'.symm)
  · rw [ledgerOf, ledgerOf, List.filterMap_map, List.filterMap_map]
    exact h.filterMap_eq fun a ha b hb hsome hsome' => hwithdrawals a ha b hb id hsome hsome'

end Converge

end Bitemporal
