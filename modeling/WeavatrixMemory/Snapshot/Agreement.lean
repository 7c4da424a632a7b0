import Mathlib.Data.List.Pairwise
import WeavatrixMemory.Projection.Supersession
import WeavatrixMemory.Snapshot.Resume

namespace WeavatrixMemory.Snapshot.Agreement

open Error Identity Domain Format Io Snapshot.Compact Chains Outcome
open Projection.State Projection.Memory Projection.Invariant Projection.Rebuild Projection.Replay
open Projection.Supersession

/-- The supersession index and the facts say the same, and what they say has no cycle. -/
structure SupersessionsAgree (p : MemoryProjection) : Prop where
  backed : ∀ prior change, p.supersessions[prior]? = some change →
    ∃ fact ∈ p.facts, fact.id = change.replacement ∧ fact.supersedes = some prior ∧
      fact.validFrom = change.validFrom ∧ fact.recordedAt = change.recordedAt
  complete : ∀ fact ∈ p.facts, ∀ prior, fact.supersedes = some prior →
    prior ∈ p.facts.map MemoryFact.id ∧ supersededBy p prior = some fact.id
  one_replacement : ∀ f ∈ p.facts, ∀ g ∈ p.facts, ∀ prior,
    f.supersedes = some prior → g.supersedes = some prior → f = g
  acyclic : ∀ id n, walk (supersededBy p) (n + 1) id ≠ some id

def priors (facts : List MemoryFact) : List FactId := facts.filterMap (·.supersedes)

/-- As many supersession entries as facts that supersede, and chains that run out. -/
def Covered (data : ProjectionData) : Prop :=
  data.supersessions.size = (priors data.facts).length ∧ ChainsEnd data.facts

instance (data : ProjectionData) : Decidable (Covered data) := inferInstanceAs (Decidable (_ ∧ _))

def storedData (bytes : Vec UInt8) : Result ProjectionData := do
  let reader ← newReader bytes.items
  match (do let _ ← readCursor; readProjectionData : Read ProjectionData) reader with
  | .ok data _ => .ok data
  | .error e _ => .error e

theorem mem_priors {facts : List MemoryFact} {prior : FactId} :
    prior ∈ priors facts ↔ ∃ fact ∈ facts, fact.supersedes = some prior := List.mem_filterMap

theorem priors_nodup {facts : List MemoryFact} (hu : (facts.map MemoryFact.id).Nodup) :
    (priors facts).Nodup ↔ ∀ f ∈ facts, ∀ g ∈ facts, ∀ prior,
      f.supersedes = some prior → g.supersedes = some prior → f = g := by
  unfold priors List.Nodup
  rw [List.pairwise_filterMap]
  have hfacts : facts.Nodup := hu.of_map _
  constructor
  · intro h f hf g hg prior hfp hgp
    by_contra hne
    have : Std.Symm fun f g : MemoryFact => ∀ b, f.supersedes = some b →
        ∀ b', g.supersedes = some b' → b ≠ b' := ⟨fun f g h b hb b' hb' he => h b' hb' b hb he.symm⟩
    exact h.forall hf hg hne prior hfp prior hgp rfl
  · intro h
    refine hfacts.imp_of_mem fun {f g} hf hg hne b hb b' hb' he => hne ?_
    exact h f hf g hg b hb (he ▸ hb')

theorem keys_subset_priors {data : ProjectionData} (hs : Sound data) :
    data.supersessions.keys ⊆ priors data.facts := by
  intro prior hk
  rw [Std.ExtTreeMap.mem_keys, Std.ExtTreeMap.mem_iff_isSome_getElem?, Option.isSome_iff_exists] at hk
  obtain ⟨change, hc⟩ := hk
  obtain ⟨-, fact, hf, -, hsup, -⟩ := hs.supersessions prior change hc
  exact mem_priors.mpr ⟨fact, hf, hsup⟩

theorem keys_nodup {κ β : Type} [Ord κ] [Std.TransOrd κ] (m : BTreeMap κ β) : m.keys.Nodup := by
  rw [← Std.ExtTreeMap.map_fst_toList_eq_keys]
  exact nodup_keys m

/-- Each entry belongs to a fact of its own, so equally many entries as superseding facts leave no
fact without an entry. -/
theorem records_of_size {data : ProjectionData} (hs : Sound data)
    (hsize : data.supersessions.size = (priors data.facts).length) :
    Records data.facts data.supersessions := by
  have hperm : data.supersessions.keys.Perm (priors data.facts) := by
    refine ((keys_nodup _).subperm (keys_subset_priors hs)).perm_of_length_le ?_
    rw [Std.ExtTreeMap.length_keys, hsize]
  have hone := (priors_nodup hs.factIds).mp (hperm.nodup_iff.mp (keys_nodup _))
  intro prior change
  constructor
  · intro hc
    obtain ⟨-, fact, hf, hid, hsup, hfrom, hat⟩ := hs.supersessions prior change hc
    exact ⟨fact, hf, hsup, by rw [hid, hfrom, hat]⟩
  · rintro ⟨fact, hf, hsup, rfl⟩
    have hk := hperm.mem_iff.mpr (mem_priors.mpr ⟨fact, hf, hsup⟩)
    rw [Std.ExtTreeMap.mem_keys, Std.ExtTreeMap.mem_iff_isSome_getElem?, Option.isSome_iff_exists] at hk
    obtain ⟨change, hc⟩ := hk
    obtain ⟨-, other, ho, hid, hother, hfrom, hat⟩ := hs.supersessions prior change hc
    obtain rfl := hone fact hf other ho prior hsup hother
    rw [hc, hid, hfrom, hat]

theorem size_of_complete {p : MemoryProjection} (hp : Valid p) (h : SupersessionsAgree p) :
    p.supersessions.size = (priors p.facts).length := by
  have hnodup := (priors_nodup hp.sound.factIds).mpr h.one_replacement
  have hsubset : priors p.facts ⊆ p.supersessions.keys := by
    intro prior hm
    obtain ⟨fact, hf, hsup⟩ := mem_priors.mp hm
    obtain ⟨change, hc, -⟩ := Option.map_eq_some_iff.mp (h.complete fact hf prior hsup).2
    rw [Std.ExtTreeMap.mem_keys, Std.ExtTreeMap.mem_iff_isSome_getElem?, hc]
    rfl
  have hle := (hnodup.subperm hsubset).length_le
  have hge := ((keys_nodup _).subperm (keys_subset_priors hp.sound)).length_le
  rw [Std.ExtTreeMap.length_keys] at hle hge
  exact Nat.le_antisymm hge hle

theorem supersessionsAgree_iff {p : MemoryProjection} (hp : Valid p) :
    SupersessionsAgree p ↔ Covered p.data := by
  have hu := hp.sound.factIds
  constructor
  · intro h
    have hsize := size_of_complete hp h
    have hr : Records p.facts p.supersessions := records_of_size hp.sound hsize
    refine ⟨hsize, chainsEnd_of_no_return fun fact _ n hw => h.acyclic fact.id n ?_⟩
    exact walk_inverse (fun _ _ hab => (supersededBy_iff_priorOf hu hr).mpr hab) hw
  · rintro ⟨hsize, hends⟩
    have hr : Records p.facts p.supersessions := records_of_size hp.sound hsize
    have hsound := chainsSound_of_chainsEnd hp hr hends
    refine ⟨fun prior change hc => (hp.sound.supersessions prior change hc).2, ?_,
      hsound.one_replacement, fun id n hw => ?_⟩
    · intro fact hf prior hsup
      have hc := (hr prior _).mpr ⟨fact, hf, hsup, rfl⟩
      exact ⟨(hp.sound.supersessions prior _ hc).1, (supersededBy_eq_some hr).mpr ⟨fact, hf, rfl, hsup⟩⟩
    · have hback := walk_inverse (fun _ _ hab => (supersededBy_iff_priorOf hu hr).mp hab) hw
      obtain ⟨prior, hprior, -⟩ := walk_succ_eq_some.mp hback
      obtain ⟨fact, hf, rfl, -⟩ := (priorOf_eq_some hu).mp hprior
      exact hsound.no_return fact hf n hback

theorem decode_eq_ok {seeds : Seeds} {bytes : Vec UInt8} {s : ProjectionSnapshot MemoryProjection}
    (h : decode seeds bytes = .ok s) :
    ∃ data, storedData bytes = .ok data ∧ data.deserialize seeds = .ok s.projection := by
  obtain ⟨reader, middle, last, data, hreader, hcursor, hdata, hp, -⟩ := RoundTrip.decode_parts h
  have hread : (do let _ ← readCursor; readProjectionData : Read ProjectionData) reader = .ok data last :=
    bind_apply_eq_ok.mpr ⟨s.cursor, middle, hcursor, hdata⟩
  refine ⟨data, ?_, hp⟩
  simp only [storedData, hreader, ok_bind, hread]

def superseding (supersessions : BTreeMap FactId Supersession) : ProjectionData where
  nodes := [.new ⟨Common.node Common.task, Common.ts 1, 0⟩, .new ⟨Common.node Common.file, Common.ts 1, 1⟩]
  facts :=
    [Common.fact Common.factOne (Common.ts 10) (Common.ts 20) none,
      Common.fact Common.factTwo (Common.ts 30) (Common.ts 40) (some Common.factOne)]
  supersessions := supersessions
  retractions := ∅
  lastGlobalPosition := some 3

def superseded : Supersession := ⟨Common.factTwo, Common.ts 30, Common.ts 40⟩

def bytesOf (data : ProjectionData) : List UInt8 :=
  match encode ⟨⟨data.lastGlobalPosition, ∅⟩, data.unindexed ⟨1, 2⟩⟩ with
  | .ok bytes => bytes
  | .error _ => []

/-- Decoders guarantee of the supersessions exactly what the stored data brings along. -/
theorem decode_supersessions_iff (seeds : Seeds) :
    (∀ (bytes : Vec UInt8) (s : ProjectionSnapshot MemoryProjection), decode seeds bytes = .ok s →
      (SupersessionsAgree s.projection ↔ ∃ data, storedData bytes = .ok data ∧ Covered data)) ∧
    ∀ (data : ProjectionData) (p : MemoryProjection), data.deserialize seeds = .ok p →
      (SupersessionsAgree p ↔ Covered data) := by
  have hdeserialize (data : ProjectionData) (p : MemoryProjection) (h : data.deserialize seeds = .ok p) :
      SupersessionsAgree p ↔ Covered data := by
    obtain ⟨hdata, hp⟩ := (deserialize_holds seeds data).of_ok h
    rw [← hdata]
    exact supersessionsAgree_iff hp
  refine ⟨fun bytes s h => ?_, hdeserialize⟩
  obtain ⟨data, hstored, hp⟩ := decode_eq_ok h
  rw [hdeserialize data s.projection hp, hstored]
  simp only [Except.ok.injEq, exists_eq_left']

theorem decode_supersessions_indexed :
    (∃ s : ProjectionSnapshot MemoryProjection, SupersessionsAgree s.projection ↔ ∃ data,
        storedData ⟨bytesOf (superseding (.insert ∅ Common.factOne superseded)), by decide +kernel⟩ = .ok data ∧
          Covered data) ∧
      ∃ p, SupersessionsAgree p ↔ Covered (superseding (.insert ∅ Common.factOne superseded)) := by
  have h := decode_supersessions_iff ⟨1, 2⟩
  obtain ⟨s, hs⟩ := exists_ok_of_isOk (show (decode ⟨1, 2⟩
    ⟨bytesOf (superseding (.insert ∅ Common.factOne superseded)), by decide +kernel⟩).isOk = true by decide +kernel)
  obtain ⟨p, hp⟩ := exists_ok_of_isOk (show ((superseding (.insert ∅ Common.factOne superseded)).deserialize
    ⟨1, 2⟩).isOk = true by decide +kernel)
  exact ⟨⟨s, h.1 _ s hs⟩, p, h.2 _ p hp⟩

/-- Without its entry the superseded fact is as good as new. -/
theorem decode_missing_supersession :
    ∃ s, decode ⟨1, 2⟩ ⟨bytesOf (superseding ∅), by decide +kernel⟩ = .ok s ∧
      s.projection.data = superseding ∅ ∧ ¬ SupersessionsAgree s.projection := by
  have hdecoded : (decode ⟨1, 2⟩ ⟨bytesOf (superseding ∅), by decide +kernel⟩).map (·.projection.data) =
      .ok (superseding ∅) := by decide +kernel
  obtain ⟨s, hs, hdata⟩ := map_eq_ok.mp hdecoded
  refine ⟨s, hs, hdata, fun h => ?_⟩
  have hfacts : s.projection.facts = (superseding ∅).facts := congrArg ProjectionData.facts hdata
  have hsup : s.projection.supersessions = ∅ := congrArg ProjectionData.supersessions hdata
  have hentry := (h.complete (Common.fact Common.factTwo (Common.ts 30) (Common.ts 40) (some Common.factOne))
    (by rw [hfacts]; exact List.mem_cons_of_mem _ List.mem_cons_self) Common.factOne rfl).2
  rw [supersededBy, hsup] at hentry
  simp at hentry

end WeavatrixMemory.Snapshot.Agreement
