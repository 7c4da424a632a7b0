import WeavatrixMemory.Identity
import Mathlib.Logic.Function.Basic

namespace WeavatrixMemory.Projection.Index

open Identity

/-- The eight little-endian bytes of one hashing chunk; a short last chunk is zero-padded. -/
def chunkWord (chunk : List UInt8) : UInt64 :=
  chunk.foldr (fun byte word => (word <<< 8) ||| byte.toUInt64) 0

def chunks : List UInt8 → List (List UInt8)
  | [] => []
  | a :: b :: c :: d :: e :: f :: g :: h :: rest => [a, b, c, d, e, f, g, h] :: chunks rest
  | short => [short]

def fingerprintChunk (hash : UInt64) (chunk : List UInt8) : UInt64 :=
  let hash := hash ^^^ (chunkWord chunk * 0xe7037ed1a0b428db)
  ((hash <<< 23) ||| (hash >>> 41)) * 0x8ebc6af09c88c6e3

def fingerprint (seed : UInt64) (bytes : List UInt8) : UInt64 :=
  let hash := (chunks bytes).foldl fingerprintChunk (seed ^^^ 0xa0761d6478bd642f)
  let hash := hash ^^^ UInt64.ofNat bytes.length
  let hash := hash ^^^ (hash >>> 29)
  let hash := hash * 0x165667919e3779f9
  hash ^^^ (hash >>> 32)

/-- The prehashed identifier index. Its two hash maps are never iterated, so a map is the
function that looks a hash up. -/
structure IdIndex (α : Type) where
  seed : UInt64
  entries : UInt64 → Option (α × Nat)
  collisions : UInt64 → Option (List (α × Nat))

/-- The seed is the random value that `RandomState` supplies. -/
def IdIndex.withSeed {α : Type} (seed : UInt64) : IdIndex α :=
  ⟨seed, fun _ => none, fun _ => none⟩

variable {α : Type} [DecidableEq α]

/-- `iter_mut().find(..)` followed by `mem::replace`: the prior index and the new bucket. -/
def replaceFirst (id : α) (index : Nat) : List (α × Nat) → Option (Nat × List (α × Nat))
  | [] => none
  | (candidate, prior) :: bucket =>
      if candidate = id then some (prior, (candidate, index) :: bucket)
      else (replaceFirst id index bucket).map fun r => (r.1, (candidate, prior) :: r.2)

def IdIndex.getHashed (ix : IdIndex α) (id : α) (hash : UInt64) : Option Nat :=
  (((ix.entries hash).filter (fun e => e.1 = id)).map (·.2)).or
    (((ix.collisions hash).bind (·.find? (fun e => e.1 = id))).map (·.2))

def IdIndex.insertHashed (ix : IdIndex α) (id : α) (index : Nat) (hash : UInt64) :
    Option Nat × IdIndex α :=
  match ix.entries hash with
  | some (candidate, prior) =>
      if candidate = id then
        (some prior, { ix with entries := Function.update ix.entries hash (some (candidate, index)) })
      else
        let bucket := (ix.collisions hash).getD []
        match replaceFirst id index bucket with
        | some (prior, bucket) =>
            (some prior, { ix with collisions := Function.update ix.collisions hash (some bucket) })
        | none =>
            (none, { ix with
              collisions := Function.update ix.collisions hash (some (bucket ++ [(id, index)])) })
  | none =>
      match (ix.collisions hash).bind (replaceFirst id index) with
      | some (prior, bucket) =>
          (some prior, { ix with collisions := Function.update ix.collisions hash (some bucket) })
      | none => (none, { ix with entries := Function.update ix.entries hash (some (id, index)) })

def bucketGet (bucket : List (α × Nat)) (id : α) : Option Nat :=
  (bucket.find? (fun e => e.1 = id)).map (·.2)

theorem bucketGet_cons_self (id : α) (index : Nat) (bucket : List (α × Nat)) :
    bucketGet ((id, index) :: bucket) id = some index := by
  simp [bucketGet]

theorem bucketGet_cons_ne {candidate id : α} (h : candidate ≠ id) (index : Nat)
    (bucket : List (α × Nat)) :
    bucketGet ((candidate, index) :: bucket) id = bucketGet bucket id := by
  simp [bucketGet, h]

theorem bucketGet_append_new (id other : α) (index : Nat) (bucket : List (α × Nat))
    (h : bucketGet bucket id = none) :
    bucketGet (bucket ++ [(id, index)]) other =
      if other = id then some index else bucketGet bucket other := by
  induction bucket with
  | nil =>
      by_cases ho : other = id
      · subst other; simp [bucketGet]
      · simp [bucketGet, ho, Ne.symm ho]
  | cons e bucket ih =>
      rcases e with ⟨candidate, old⟩
      by_cases hc : candidate = id
      · subst candidate
        rw [bucketGet_cons_self] at h
        cases h
      · rw [bucketGet_cons_ne hc] at h
        by_cases ho : candidate = other
        · subst other
          rw [List.cons_append, bucketGet_cons_self, bucketGet_cons_self, if_neg hc]
        · rw [List.cons_append, bucketGet_cons_ne ho, bucketGet_cons_ne ho, ih h]

theorem replaceFirst_none {id : α} {index : Nat} {bucket : List (α × Nat)}
    (h : replaceFirst id index bucket = none) : bucketGet bucket id = none := by
  induction bucket with
  | nil => rfl
  | cons e bucket ih =>
      rcases e with ⟨candidate, prior⟩
      by_cases hc : candidate = id
      · simp [replaceFirst, hc] at h
      · rw [bucketGet_cons_ne hc]
        exact ih (by simpa [replaceFirst, hc] using h)

theorem replaceFirst_some {id : α} {index prior : Nat} {bucket bucket' : List (α × Nat)}
    (h : replaceFirst id index bucket = some (prior, bucket')) :
    bucketGet bucket id = some prior ∧
      ∀ other, bucketGet bucket' other = if other = id then some index else bucketGet bucket other := by
  induction bucket generalizing bucket' with
  | nil => cases h
  | cons e bucket ih =>
      rcases e with ⟨candidate, old⟩
      by_cases hc : candidate = id
      · subst candidate
        simp only [replaceFirst, if_true, Option.some.injEq, Prod.mk.injEq] at h
        obtain ⟨rfl, rfl⟩ := h
        refine ⟨bucketGet_cons_self _ _ _, fun other => ?_⟩
        by_cases ho : other = id
        · subst other; rw [bucketGet_cons_self, if_pos rfl]
        · rw [bucketGet_cons_ne (Ne.symm ho), bucketGet_cons_ne (Ne.symm ho), if_neg ho]
      · simp only [replaceFirst, hc, if_false, Option.map_eq_some_iff] at h
        obtain ⟨⟨p, tail⟩, hr, he⟩ := h
        cases he
        obtain ⟨hp, ht⟩ := ih hr
        refine ⟨by rwa [bucketGet_cons_ne hc], fun other => ?_⟩
        by_cases ho : candidate = other
        · subst other; rw [bucketGet_cons_self, bucketGet_cons_self, if_neg hc]
        · rw [bucketGet_cons_ne ho, bucketGet_cons_ne ho, ht]

theorem getHashed_hit {ix : IdIndex α} {id : α} {index : Nat} {hash : UInt64}
    (h : ix.entries hash = some (id, index)) : ix.getHashed id hash = some index := by
  simp [IdIndex.getHashed, h, Option.filter]

theorem getHashed_miss {ix : IdIndex α} {id : α} {hash : UInt64}
    (h : ∀ e ∈ ix.entries hash, e.1 ≠ id) :
    ix.getHashed id hash = bucketGet ((ix.collisions hash).getD []) id := by
  have he : ((ix.entries hash).filter (fun e => e.1 = id)) = none := by
    rw [Option.filter_eq_none_iff]
    intro e hm
    simpa using h e hm
  cases hb : ix.collisions hash <;> simp [IdIndex.getHashed, he, hb, bucketGet]

theorem insertHashed_fst (ix : IdIndex α) (id : α) (index : Nat) (hash : UInt64) :
    (ix.insertHashed id index hash).1 = ix.getHashed id hash := by
  unfold IdIndex.insertHashed
  split
  · rename_i candidate prior he
    split
    · rename_i hc
      subst candidate
      exact (getHashed_hit he).symm
    · rename_i hc
      rw [getHashed_miss (by rw [he]; rintro _ ⟨⟩; exact hc)]
      simp only
      split
      · rename_i hr
        exact (replaceFirst_some hr).1.symm
      · rename_i hr
        exact (replaceFirst_none hr).symm
  · rename_i he
    rw [getHashed_miss (by rw [he]; rintro _ ⟨⟩)]
    cases hb : ix.collisions hash with
    | none => rfl
    | some bucket =>
        cases hr : replaceFirst id index bucket with
        | none => simpa [hr] using (replaceFirst_none hr).symm
        | some r => simpa [hr] using (replaceFirst_some hr).1.symm

theorem getHashed_collisions (ix ix' : IdIndex α) (id : α) (hash : UInt64)
    (he : ix'.entries = ix.entries) (h : ∀ e ∈ ix.entries hash, e.1 ≠ id) :
    ix'.getHashed id hash = bucketGet ((ix'.collisions hash).getD []) id :=
  getHashed_miss (by rwa [he])

theorem getHashed_insertHashed_occupied {ix : IdIndex α} {hash : UInt64} {candidate : α} {prior : Nat}
    (he : ix.entries hash = some (candidate, prior)) (id other : α) (index : Nat) :
    (ix.insertHashed id index hash).2.getHashed other hash =
      if other = id then some index else ix.getHashed other hash := by
  simp only [IdIndex.insertHashed, he]
  by_cases hc : candidate = id
  · subst candidate
    rw [if_pos rfl]
    by_cases ho : other = id
    · subst other
      rw [if_pos rfl]
      exact getHashed_hit (by simp)
    · rw [if_neg ho, getHashed_miss (by simp [Ne.symm ho]), getHashed_miss (by simp [he, Ne.symm ho])]
  · rw [if_neg hc]
    by_cases ho : candidate = other
    · subst other
      rw [if_neg hc, getHashed_hit he]
      split <;> exact getHashed_hit he
    · have hne : ∀ e ∈ ix.entries hash, e.1 ≠ other := by
        rw [he]
        rintro _ ⟨⟩
        exact ho
      rw [getHashed_miss hne]
      split
      · rename_i hr
        refine (getHashed_collisions ix _ other hash (by rfl) hne).trans ?_
        simpa using (replaceFirst_some hr).2 other
      · rename_i hr
        refine (getHashed_collisions ix _ other hash (by rfl) hne).trans ?_
        simpa using bucketGet_append_new id other index _ (replaceFirst_none hr)

theorem getHashed_insertHashed_vacant {ix : IdIndex α} {hash : UInt64}
    (he : ix.entries hash = none) (id other : α) (index : Nat) :
    (ix.insertHashed id index hash).2.getHashed other hash =
      if other = id then some index else ix.getHashed other hash := by
  have hne : ∀ e ∈ ix.entries hash, e.1 ≠ other := by
    rw [he]
    rintro _ ⟨⟩
  simp only [IdIndex.insertHashed, he]
  rw [getHashed_miss hne]
  split
  · rename_i prior bucket' hr
    obtain ⟨bucket, hb, hr⟩ := Option.bind_eq_some_iff.mp hr
    refine (getHashed_collisions ix _ other hash (by rfl) hne).trans ?_
    simpa [hb] using (replaceFirst_some hr).2 other
  · by_cases ho : other = id
    · subst other
      rw [if_pos rfl]
      exact getHashed_hit (by simp)
    · rw [if_neg ho, getHashed_miss (by simp [Ne.symm ho])]

/-- Identifiers with one hash never shadow each other: an insertion changes the answer for the
inserted identifier and for no other, whatever the hash function is. -/
theorem getHashed_insertHashed (ix : IdIndex α) (hash : α → UInt64) (id other : α) (index : Nat) :
    (ix.insertHashed id index (hash id)).2.getHashed other (hash other) =
      if other = id then some index else ix.getHashed other (hash other) := by
  by_cases hh : hash other = hash id
  · rw [hh]
    cases he : ix.entries (hash id) with
    | some entry => exact getHashed_insertHashed_occupied he id other index
    | none => exact getHashed_insertHashed_vacant he id other index
  · have ho : other ≠ id := fun h => hh (congrArg hash h)
    rw [if_neg ho]
    unfold IdIndex.insertHashed
    split
    · split
      · simp [IdIndex.getHashed, hh]
      · simp only
        split <;> simp [IdIndex.getHashed, hh]
    · split <;> simp [IdIndex.getHashed, hh]

theorem insertHashed_seed (ix : IdIndex α) (id : α) (index : Nat) (hash : UInt64) :
    (ix.insertHashed id index hash).2.seed = ix.seed := by
  unfold IdIndex.insertHashed
  split
  · split
    · rfl
    · simp only
      split <;> rfl
  · split <;> rfl

variable {kind : IdKind}

def IdIndex.hash (ix : IdIndex (TextId kind)) (id : TextId kind) : UInt64 :=
  fingerprint ix.seed id.text.bytes

def IdIndex.get (ix : IdIndex (TextId kind)) (id : TextId kind) : Option Nat :=
  ix.getHashed id (ix.hash id)

def IdIndex.containsKey (ix : IdIndex (TextId kind)) (id : TextId kind) : Bool := (ix.get id).isSome

def IdIndex.insert (ix : IdIndex (TextId kind)) (id : TextId kind) (index : Nat) :
    Option Nat × IdIndex (TextId kind) :=
  ix.insertHashed id index (ix.hash id)

@[simp] theorem get_withSeed (seed : UInt64) (id : TextId kind) :
    (IdIndex.withSeed seed).get id = none := rfl

theorem insert_fst (ix : IdIndex (TextId kind)) (id : TextId kind) (index : Nat) :
    (ix.insert id index).1 = ix.get id := insertHashed_fst ix id index (ix.hash id)

theorem get_insert (ix : IdIndex (TextId kind)) (id other : TextId kind) (index : Nat) :
    (ix.insert id index).2.get other = if other = id then some index else ix.get other := by
  unfold IdIndex.get IdIndex.hash
  rw [show (ix.insert id index).2.seed = ix.seed from insertHashed_seed ix id index _]
  exact getHashed_insertHashed ix (fun id => fingerprint ix.seed id.text.bytes) id other index

/-- The index maps exactly the listed identifiers, each to its place in the list. -/
def IndexOf (ix : IdIndex (TextId kind)) (ids : List (TextId kind)) : Prop :=
  ∀ id i, ix.get id = some i ↔ ids[i]? = some id

theorem indexOf_withSeed (seed : UInt64) : IndexOf (IdIndex.withSeed seed) ([] : List (TextId kind)) := by
  intro id i
  simp

theorem IndexOf.get_eq_none {ix : IdIndex (TextId kind)} {ids : List (TextId kind)} (h : IndexOf ix ids)
    {id : TextId kind} : ix.get id = none ↔ id ∉ ids := by
  rw [List.mem_iff_getElem?, ← not_iff_not, not_not]
  simp only [← h id, ← Option.isSome_iff_exists, Option.isSome_iff_ne_none]

theorem IndexOf.insert_isSome {ix : IdIndex (TextId kind)} {ids : List (TextId kind)} (h : IndexOf ix ids)
    {id : TextId kind} {index : Nat} : (ix.insert id index).1.isSome = true ↔ id ∈ ids := by
  rw [insert_fst, Option.isSome_iff_ne_none, ne_eq, h.get_eq_none, not_not]

theorem IndexOf.repeats {ix : IdIndex (TextId kind)} {ids : List (TextId kind)} (h : IndexOf ix ids)
    {id : TextId kind} {index : Nat} (hs : (ix.insert id index).1.isSome = true) (rest : List (TextId kind)) :
    ¬ (ids ++ id :: rest).Nodup := by
  intro hnodup
  exact (List.nodup_append.mp hnodup).2.2 id (h.insert_isSome.mp hs) id List.mem_cons_self rfl

theorem IndexOf.nodup {ix : IdIndex (TextId kind)} {ids : List (TextId kind)} (h : IndexOf ix ids) :
    ids.Nodup := by
  apply List.pairwise_iff_getElem.mpr
  intro i j hi hj hij he
  have hget := (h ids[j] i).mpr (by rw [List.getElem?_eq_getElem hi, he])
  rw [(h ids[j] j).mpr (List.getElem?_eq_getElem hj), Option.some.injEq] at hget
  omega

theorem IndexOf.insert {ix : IdIndex (TextId kind)} {ids : List (TextId kind)} (h : IndexOf ix ids)
    {id : TextId kind} (hid : ix.get id = none) :
    IndexOf (ix.insert id ids.length).2 (ids ++ [id]) := by
  have hnew := h.get_eq_none.mp hid
  intro other i
  rw [get_insert]
  by_cases ho : other = id
  · subst other
    rw [if_pos rfl, Option.some.injEq]
    constructor
    · rintro rfl
      exact List.getElem?_concat_length
    · intro hi
      by_cases hlt : i < ids.length
      · rw [List.getElem?_append_left hlt] at hi
        exact absurd (List.mem_of_getElem? hi) hnew
      · have hle := (List.getElem?_eq_some_iff.mp hi).1
        rw [List.length_append, List.length_singleton] at hle
        omega
  · rw [if_neg ho, h other i]
    by_cases hlt : i < ids.length
    · rw [List.getElem?_append_left hlt]
    · rw [List.getElem?_eq_none (by omega), List.getElem?_append_right (by omega)]
      constructor
      · intro hi
        cases hi
      · intro hi
        exact absurd (List.mem_singleton.mp (List.mem_of_getElem? hi)) ho

theorem IndexOf.unique {ix ix' : IdIndex (TextId kind)} {ids : List (TextId kind)} (h : IndexOf ix ids)
    (h' : IndexOf ix' ids) (id : TextId kind) : ix.get id = ix'.get id :=
  Option.ext fun i => (h id i).trans (h' id i).symm

end WeavatrixMemory.Projection.Index
