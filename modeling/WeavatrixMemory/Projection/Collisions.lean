import WeavatrixMemory.Projection.Index

namespace WeavatrixMemory.Projection.Collisions

open Identity Index

variable {α : Type} [DecidableEq α] {kind : IdKind}

def slots (ix : IdIndex α) (hash : UInt64) : List (α × Nat) :=
  (ix.entries hash).toList ++ (ix.collisions hash).getD []

structure Separate (hash : α → UInt64) (ix : IdIndex α) : Prop where
  own : ∀ h, ∀ slot ∈ slots ix h, hash slot.1 = h
  distinct : ∀ h, ((slots ix h).map (·.1)).Nodup

theorem replaceFirst_ids {id : α} {index prior : Nat} {bucket bucket' : List (α × Nat)}
    (h : replaceFirst id index bucket = some (prior, bucket')) :
    bucket'.map (·.1) = bucket.map (·.1) ∧ id ∈ bucket.map (·.1) := by
  induction bucket generalizing bucket' with
  | nil => cases h
  | cons slot bucket ih =>
      obtain ⟨candidate, old⟩ := slot
      by_cases hc : candidate = id
      · subst hc
        simp only [replaceFirst, if_true, Option.some.injEq, Prod.mk.injEq] at h
        obtain ⟨rfl, rfl⟩ := h
        exact ⟨rfl, List.mem_cons_self⟩
      · simp only [replaceFirst, hc, if_false, Option.map_eq_some_iff] at h
        obtain ⟨⟨p, tail⟩, hr, he⟩ := h
        cases he
        obtain ⟨hids, hmem⟩ := ih hr
        exact ⟨congrArg (candidate :: ·) hids, List.mem_cons_of_mem _ hmem⟩

theorem bucketGet_eq_none {id : α} {bucket : List (α × Nat)} : bucketGet bucket id = none ↔ id ∉ bucket.map (·.1) := by
  rw [bucketGet, Option.map_eq_none_iff, List.find?_eq_none, List.mem_map, not_exists]
  simp only [decide_eq_true_eq, not_and]

theorem bucketGet_eq_some {id : α} {index : Nat} {bucket : List (α × Nat)} (hd : (bucket.map (·.1)).Nodup) :
    bucketGet bucket id = some index ↔ (id, index) ∈ bucket := by
  induction bucket with
  | nil => simp [bucketGet]
  | cons slot bucket ih =>
      obtain ⟨candidate, old⟩ := slot
      obtain ⟨hnew, hrest⟩ := List.nodup_cons.mp hd
      by_cases hc : candidate = id
      · subst hc
        rw [bucketGet_cons_self, List.mem_cons, Option.some.injEq, Prod.mk.injEq]
        have hlater : (candidate, index) ∉ bucket := fun h => hnew (List.mem_map.mpr ⟨_, h, rfl⟩)
        constructor
        · rintro rfl
          exact .inl ⟨rfl, rfl⟩
        · rintro (⟨-, rfl⟩ | h)
          · rfl
          · exact absurd h hlater
      · rw [bucketGet_cons_ne hc, ih hrest, List.mem_cons, Prod.mk.injEq]
        exact (or_iff_right fun h => hc h.1.symm).symm

theorem getHashed_slots (ix : IdIndex α) (id : α) (hash : UInt64) :
    ix.getHashed id hash = bucketGet (slots ix hash) id := by
  rw [slots]
  cases he : ix.entries hash with
  | none => exact getHashed_miss (by simp [he])
  | some entry =>
      obtain ⟨candidate, old⟩ := entry
      rw [Option.toList_some, List.singleton_append]
      by_cases hc : candidate = id
      · subst hc
        rw [getHashed_hit he, bucketGet_cons_self]
      · rw [bucketGet_cons_ne hc]
        exact getHashed_miss (by simp [he, hc])

theorem slots_insertHashed_ne (ix : IdIndex α) (id : α) (index : Nat) {hash other : UInt64} (h : other ≠ hash) :
    slots (ix.insertHashed id index hash).2 other = slots ix other := by
  unfold IdIndex.insertHashed
  split
  · split
    · simp [slots, h]
    · simp only
      split <;> simp [slots, h]
  · split <;> simp [slots, h]

theorem ids_insertHashed (ix : IdIndex α) (id : α) (index : Nat) (hash : UInt64) :
    ((slots (ix.insertHashed id index hash).2 hash).map (·.1)).Perm
      (if id ∈ (slots ix hash).map (·.1) then (slots ix hash).map (·.1) else id :: (slots ix hash).map (·.1)) := by
  unfold IdIndex.insertHashed
  split
  next candidate prior he =>
    split
    next hc =>
      subst hc
      simp [slots, he]
    next hc =>
      dsimp only
      split
      next hr =>
        obtain ⟨hids, hmem⟩ := replaceFirst_ids hr
        simp only [slots, he, Function.update_self, Option.toList_some, Option.getD_some, List.map_append, hids]
        rw [if_pos (List.mem_append_right _ hmem)]
      next hr =>
        have hnone := bucketGet_eq_none.mp (replaceFirst_none hr)
        simp only [slots, he, Function.update_self, Option.toList_some, Option.getD_some, List.map_append]
        rw [if_neg]
        · rw [← List.append_assoc]
          exact List.perm_append_singleton _ _
        · simpa [Ne.symm hc] using hnone
  next he =>
    split
    next hr =>
      obtain ⟨bucket, hb, hr⟩ := Option.bind_eq_some_iff.mp hr
      obtain ⟨hids, hmem⟩ := replaceFirst_ids hr
      simp only [slots, he, hb, Function.update_self, Option.toList_none, Option.getD_some, List.nil_append, hids]
      rw [if_pos hmem]
    next hr =>
      have hnone : id ∉ ((ix.collisions hash).getD []).map (·.1) := by
        cases hb : ix.collisions hash with
        | none => exact List.not_mem_nil
        | some bucket =>
            rw [hb, Option.bind_some] at hr
            exact bucketGet_eq_none.mp (replaceFirst_none hr)
      simp only [slots, he, Function.update_self, Option.toList_some, Option.toList_none, List.nil_append]
      rw [if_neg hnone]
      rfl

omit [DecidableEq α] in
theorem separate_withSeed (hash : α → UInt64) (seed : UInt64) : Separate hash (IdIndex.withSeed seed : IdIndex α) where
  own _ _ h := absurd h List.not_mem_nil
  distinct _ := List.nodup_nil

theorem Separate.insertHashed {hash : α → UInt64} {ix : IdIndex α} (h : Separate hash ix) (id : α) (index : Nat) :
    Separate hash (ix.insertHashed id index (hash id)).2 := by
  refine ⟨fun other slot hslot => ?_, fun other => ?_⟩
  · by_cases hother : other = hash id
    · subst hother
      have hid := (ids_insertHashed ix id index (hash id)).mem_iff.mp (List.mem_map_of_mem hslot)
      have hold (hmem : slot.1 ∈ (slots ix (hash id)).map (·.1)) : hash slot.1 = hash id := by
        obtain ⟨before, hbefore, hsame⟩ := List.mem_map.mp hmem
        rw [← hsame, h.own _ before hbefore]
      split at hid
      · exact hold hid
      · obtain hid | hid := List.mem_cons.mp hid
        · rw [hid]
        · exact hold hid
    · rw [slots_insertHashed_ne ix id index hother] at hslot
      exact h.own other slot hslot
  · by_cases hother : other = hash id
    · subst hother
      rw [(ids_insertHashed ix id index (hash id)).nodup_iff]
      split
      next => exact h.distinct _
      next hnew => exact List.nodup_cons.mpr ⟨hnew, h.distinct _⟩
    · rw [slots_insertHashed_ne ix id index hother]
      exact h.distinct other

inductive Insertion (α : Type)
  | insert (id : α) (index : Nat)
  | insertHashed (id : α) (index : Nat) (hash : UInt64)

def Insertion.id : Insertion α → α
  | .insert id _ => id
  | .insertHashed id _ _ => id

def Insertion.index : Insertion α → Nat
  | .insert _ index => index
  | .insertHashed _ index _ => index

/-- A hash that is handed over is the one that the index would compute. -/
def Insertion.Own (hash : α → UInt64) : Insertion α → Prop
  | .insert _ _ => True
  | .insertHashed id _ given => given = hash id

/-- `get`, with any function of the seed and the identifier in place of `fingerprint`. -/
def getBy (hash : UInt64 → α → UInt64) (ix : IdIndex α) (id : α) : Option Nat :=
  ix.getHashed id (hash ix.seed id)

def Insertion.run (hash : UInt64 → α → UInt64) (ix : IdIndex α) : Insertion α → Option Nat × IdIndex α
  | .insert id index => ix.insertHashed id index (hash ix.seed id)
  | .insertHashed id index given => ix.insertHashed id index given

def runAll (hash : UInt64 → α → UInt64) : List (Insertion α) → IdIndex α → List (Option Nat) × IdIndex α
  | [], ix => ([], ix)
  | call :: rest, ix =>
      let done := runAll hash rest (call.run hash ix).2
      ((call.run hash ix).1 :: done.1, done.2)

def latest (calls : List (Insertion α)) (id : α) : Option Nat :=
  (calls.reverse.find? fun call => call.id = id).map Insertion.index

/-- What the calls answer and leave is what a map would. -/
structure ActsAsMap (hash : UInt64 → α → UInt64) (seed : UInt64) (calls : List (Insertion α))
    (priors : List (Option Nat)) (ix : IdIndex α) : Prop where
  get : ∀ id, getBy hash ix id = latest calls id
  never : ∀ id, getBy hash ix id = none ↔ ∀ call ∈ calls, call.id ≠ id
  priors : ∀ i, priors[i]? = calls[i]?.map fun call => latest (calls.take i) call.id
  held : ∀ h id index, (id, index) ∈ slots ix h ↔ hash seed id = h ∧ latest calls id = some index
  distinct : ∀ h, ((slots ix h).map (·.1)).Nodup

example (ix : IdIndex (TextId kind)) (id : TextId kind) (index : Nat) :
    ix.get id = getBy (fun seed id => fingerprint seed id.text.bytes) ix id ∧
      ix.insert id index = Insertion.run (fun seed id => fingerprint seed id.text.bytes) ix (.insert id index) :=
  ⟨rfl, rfl⟩

section Runs

variable {hash : UInt64 → α → UInt64} {ix : IdIndex α}

theorem latest_cons (call : Insertion α) (rest : List (Insertion α)) (id : α) :
    latest (call :: rest) id = (latest rest id).or (if call.id = id then some call.index else none) := by
  rw [latest, latest, List.reverse_cons, List.find?_append]
  cases rest.reverse.find? fun call => call.id = id with
  | some found => rfl
  | none =>
      rw [Option.none_or, Option.map_none, Option.none_or, List.find?_singleton]
      by_cases hid : call.id = id <;> simp [hid]

theorem latest_eq_none {calls : List (Insertion α)} {id : α} :
    latest calls id = none ↔ ∀ call ∈ calls, call.id ≠ id := by
  rw [latest, Option.map_eq_none_iff, List.find?_eq_none]
  simp only [List.mem_reverse, decide_eq_true_eq, ne_eq]

theorem Insertion.run_eq {call : Insertion α} (h : call.Own (hash ix.seed)) :
    call.run hash ix = ix.insertHashed call.id call.index (hash ix.seed call.id) := by
  cases call with
  | insert id index => rfl
  | insertHashed id index given =>
      obtain rfl : given = hash ix.seed id := h
      rfl

theorem getBy_run {call : Insertion α} (h : call.Own (hash ix.seed)) (id : α) :
    getBy hash (call.run hash ix).2 id = if call.id = id then some call.index else getBy hash ix id := by
  rw [Insertion.run_eq h, getBy, insertHashed_seed, getHashed_insertHashed]
  exact if_congr eq_comm rfl rfl

theorem runAll_spec {calls : List (Insertion α)} (hs : Separate (hash ix.seed) ix)
    (hown : ∀ call ∈ calls, call.Own (hash ix.seed)) :
    (runAll hash calls ix).2.seed = ix.seed ∧ Separate (hash ix.seed) (runAll hash calls ix).2 ∧
      (∀ id, getBy hash (runAll hash calls ix).2 id = (latest calls id).or (getBy hash ix id)) ∧
      ∀ i, (runAll hash calls ix).1[i]? =
        calls[i]?.map fun call => (latest (calls.take i) call.id).or (getBy hash ix call.id) := by
  induction calls generalizing ix with
  | nil => exact ⟨rfl, hs, fun _ => rfl, fun _ => rfl⟩
  | cons call rest ih =>
      obtain ⟨hcall, hrest⟩ := List.forall_mem_cons.mp hown
      have hseed : (call.run hash ix).2.seed = ix.seed := by rw [Insertion.run_eq hcall, insertHashed_seed]
      have hnext : Separate (hash ix.seed) (call.run hash ix).2 := by
        rw [Insertion.run_eq hcall]
        exact hs.insertHashed call.id call.index
      rw [← hseed] at hnext hrest
      obtain ⟨hlast, hseparate, hget, hpriors⟩ := ih hnext hrest
      have hor (calls : List (Insertion α)) (id : α) :
          (latest calls id).or (getBy hash (call.run hash ix).2 id) =
            ((latest calls id).or (if call.id = id then some call.index else none)).or (getBy hash ix id) := by
        rw [getBy_run hcall, Option.or_assoc]
        by_cases hid : call.id = id <;> simp [hid]
      rw [hseed] at hlast hseparate
      refine ⟨hlast, hseparate, fun id => ?_, fun i => ?_⟩
      · rw [latest_cons, ← hor]
        exact hget id
      · cases i with
        | zero =>
            have hfirst : (call.run hash ix).1 = getBy hash ix call.id := by
              rw [Insertion.run_eq hcall]
              exact insertHashed_fst ix call.id call.index _
            rw [runAll, List.getElem?_cons_zero, List.getElem?_cons_zero, Option.map_some, List.take_zero, hfirst]
            rfl
        | succ i =>
            rw [runAll, List.getElem?_cons_succ, List.getElem?_cons_succ, hpriors, List.take_succ_cons]
            simp only [latest_cons, hor]

/-- The index is a map, however its hash function makes identifiers collide. -/
theorem index_acts_as_map (hash : UInt64 → α → UInt64) (seed : UInt64) (calls : List (Insertion α))
    (hown : ∀ call ∈ calls, call.Own (hash seed)) :
    ActsAsMap hash seed calls (runAll hash calls (IdIndex.withSeed seed)).1
      (runAll hash calls (IdIndex.withSeed seed)).2 := by
  obtain ⟨hseed, hs, hget, hpriors⟩ :=
    @runAll_spec _ _ hash (IdIndex.withSeed seed) calls (separate_withSeed (hash seed) seed) hown
  have hnone (id : α) : getBy hash (IdIndex.withSeed seed) id = none := rfl
  simp only [hnone, Option.or_none] at hget hpriors
  refine ⟨hget, fun id => ?_, hpriors, fun h id index => ?_, hs.distinct⟩
  · rw [hget, latest_eq_none]
  · rw [← hget, getBy, hseed, getHashed_slots, bucketGet_eq_some (hs.distinct _)]
    constructor
    · intro hslot
      obtain rfl : hash seed id = h := hs.own h _ hslot
      exact ⟨rfl, hslot⟩
    · rintro ⟨rfl, hslot⟩
      exact hslot

/-- Two identifiers of the same hash, one of them inserted twice. -/
theorem index_acts_as_map_colliding : ActsAsMap (fun _ _ => 7) 0
    [Insertion.insertHashed "first" 1 7, .insert "second" 2, .insertHashed "second" 3 7] [none, none, some 2]
    (runAll (fun _ _ => 7) [Insertion.insertHashed "first" 1 7, .insert "second" 2, .insertHashed "second" 3 7]
      (IdIndex.withSeed 0)).2 :=
  index_acts_as_map (fun _ _ => 7) 0 [.insertHashed "first" 1 7, .insert "second" 2, .insertHashed "second" 3 7]
    (by simp [Insertion.Own])

end Runs

end WeavatrixMemory.Projection.Collisions
