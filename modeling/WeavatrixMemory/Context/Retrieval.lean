import WeavatrixMemory.Identity
import WeavatrixMemory.Library.Outcome
import WeavatrixMemory.Library.Ranking

namespace WeavatrixMemory.Context.Retrieval

open Identity Outcome Ranking Sorting

inductive RetrievalChannel
  | literal | lexical | semantic | hybrid
deriving DecidableEq

instance ordRetrievalChannel : Ord RetrievalChannel := ⟨compareOn RetrievalChannel.ctorIdx⟩

instance transRetrievalChannel : Std.TransOrd RetrievalChannel :=
  inferInstanceAs (Std.TransCmp (compareOn RetrievalChannel.ctorIdx))

instance lawfulRetrievalChannel : Std.LawfulEqOrd RetrievalChannel where
  eq_of_compare {a b} h := by
    have hindex : a.ctorIdx = b.ctorIdx := Std.LawfulEqOrd.eq_of_compare h
    cases a <;> cases b <;> first | rfl | cases hindex

structure RetrievalQuery where
  text : Text
  limit : Nat
  channels : BTreeSet RetrievalChannel

structure RetrievalHit where
  entity : EntityId
  channel : RetrievalChannel
  score : UInt32
deriving DecidableEq

structure RetrievalSource where
  provider : Text
  channel : RetrievalChannel
  rank : Nat
  rawScore : UInt32
deriving DecidableEq

structure FusedRetrievalHit where
  entity : EntityId
  fusedScore : UInt64
  sources : List RetrievalSource
deriving DecidableEq

structure RetrievalError where
  provider : String
  message : String
deriving DecidableEq

abbrev RetrievalResult := Except RetrievalError

def RetrievalQuery.new (text : Text) (limit : Nat) : RetrievalResult RetrievalQuery :=
  if ¬ Trimmed text.str then .error ⟨"query", "text must be non-empty and trimmed"⟩
  else if limit = 0 then .error ⟨"query", "limit must be greater than zero"⟩
  else .ok ⟨text, limit, ∅⟩

def RetrievalQuery.include (query : RetrievalQuery) (channel : RetrievalChannel) : RetrievalQuery :=
  { query with channels := query.channels.insert channel }

structure RetrievalProvider where
  name : Text
  retrieve : RetrievalQuery → RetrievalResult (Vec RetrievalHit)

def rrfK : Nat := 60

def rrfScale : Nat := 1000000000

/-- A rank is at most the length of a vector, so that the sum stays within `u64`. -/
def contribution (rank : Nat) : Nat := rrfScale / (rrfK + rank)

def u64SaturatingAdd (a b : UInt64) : UInt64 :=
  if a.toNat + b.toNat < 2 ^ 64 then a + b else UInt64.ofNat (2 ^ 64 - 1)

def validateProviders : List RetrievalProvider → BTreeSet Text → RetrievalResult Unit
  | [], _ => .ok ()
  | provider :: rest, names =>
      if ¬ Trimmed provider.name.str then .error ⟨"provider", "provider names must be non-empty and trimmed"⟩
      else if names.contains provider.name then .error ⟨provider.name.str, "provider names must be unique"⟩
      else validateProviders rest (names.insert provider.name)

def channelAllowed (query : RetrievalQuery) (hit : RetrievalHit) : Bool :=
  query.channels.isEmpty || query.channels.contains hit.channel

def hitOrder (left right : RetrievalHit) : Ordering :=
  ((compare right.score left.score).then (compare left.entity right.entity)).then
    (compare left.channel right.channel)

/-- `retain` with the set of the entities that have been seen. -/
def retainUnseen : BTreeSet EntityId → List RetrievalHit → List RetrievalHit
  | _, [] => []
  | seen, hit :: rest =>
      if seen.contains hit.entity then retainUnseen seen rest
      else hit :: retainUnseen (seen.insert hit.entity) rest

def rankHits (query : RetrievalQuery) (hits : List RetrievalHit) : List RetrievalHit :=
  (retainUnseen ∅ ((hits.filter (channelAllowed query)).mergeSort fun left right => (hitOrder left right).isLE)).take
    query.limit

def fuseHit (provider : Text) (fused : BTreeMap EntityId FusedRetrievalHit) (ranked : RetrievalHit × Nat) :
    BTreeMap EntityId FusedRetrievalHit :=
  let (hit, offset) := ranked
  let rank := offset + 1
  let entry := fused[hit.entity]?.getD ⟨hit.entity, 0, []⟩
  fused.insert hit.entity
    { entry with
      fusedScore := u64SaturatingAdd entry.fusedScore (UInt64.ofNat (contribution rank))
      sources := entry.sources ++ [⟨provider, hit.channel, rank, hit.score⟩] }

def fuseProvider (query : RetrievalQuery) (fused : BTreeMap EntityId FusedRetrievalHit)
    (provider : RetrievalProvider) : RetrievalResult (BTreeMap EntityId FusedRetrievalHit) := do
  let hits ← provider.retrieve query
  .ok ((rankHits query hits.items).zipIdx.foldl (fuseHit provider.name) fused)

def fusedOrder (left right : FusedRetrievalHit) : Ordering :=
  (compare right.fusedScore left.fusedScore).then (compare left.entity right.entity)

def fuseRetrieval (providers : List RetrievalProvider) (query : RetrievalQuery) :
    RetrievalResult (List FusedRetrievalHit) := do
  let providers := providers.mergeSort fun left right => (compare left.name right.name).isLE
  validateProviders providers ∅
  let fused ← providers.foldlM (fuseProvider query) ∅
  .ok (((valuesOf fused).mergeSort fun left right => (fusedOrder left right).isLE).take query.limit)

instance transHitOrder : Std.TransCmp hitOrder :=
  inferInstanceAs (Std.TransCmp (compareLex (compareLex (fun left right => compareOn RetrievalHit.score right left)
    (compareOn RetrievalHit.entity)) (compareOn RetrievalHit.channel)))

instance lawfulHitOrder : Std.LawfulEqCmp hitOrder where
  compare_self := Std.ReflCmp.compare_self
  eq_of_compare {a b} h := by
    rw [hitOrder, Ordering.then_eq_eq, Ordering.then_eq_eq] at h
    obtain ⟨⟨hscore, hentity⟩, hchannel⟩ := h
    cases a
    cases b
    rw [RetrievalHit.mk.injEq]
    exact ⟨Std.LawfulEqOrd.eq_of_compare hentity, Std.LawfulEqOrd.eq_of_compare hchannel,
      (Std.LawfulEqOrd.eq_of_compare hscore).symm⟩

instance transFusedOrder : Std.TransCmp fusedOrder :=
  inferInstanceAs (Std.TransCmp (compareLex (fun left right => compareOn FusedRetrievalHit.fusedScore right left)
    (compareOn FusedRetrievalHit.entity)))

variable {query : RetrievalQuery} {providers : List RetrievalProvider} {hits : List RetrievalHit}

def outcome (query : RetrievalQuery) (provider : RetrievalProvider) : Text × RetrievalResult (List RetrievalHit) :=
  (provider.name, (provider.retrieve query).map fun hits => rankHits query hits.items)

def fuseOutcome (fused : BTreeMap EntityId FusedRetrievalHit) (outcome : Text × RetrievalResult (List RetrievalHit)) :
    RetrievalResult (BTreeMap EntityId FusedRetrievalHit) := do
  let hits ← outcome.2
  .ok (hits.zipIdx.foldl (fuseHit outcome.1) fused)

theorem foldlM_outcomes (query : RetrievalQuery) (providers : List RetrievalProvider)
    (fused : BTreeMap EntityId FusedRetrievalHit) :
    providers.foldlM (fuseProvider query) fused = (providers.map (outcome query)).foldlM fuseOutcome fused := by
  rw [List.foldlM_map]
  congr 1
  funext fused provider
  rw [fuseProvider, fuseOutcome, outcome]
  cases provider.retrieve query <;> rfl

theorem validateProviders_congr {others : List RetrievalProvider} {names : BTreeSet Text}
    (h : providers.map (·.name) = others.map (·.name)) :
    validateProviders providers names = validateProviders others names := by
  induction providers generalizing others names with
  | nil =>
      obtain rfl := List.map_eq_nil_iff.mp h.symm
      rfl
  | cons provider rest ih =>
      obtain ⟨other, others, rfl, hname, hrest⟩ := List.map_eq_cons_iff.mp h.symm
      rw [validateProviders, validateProviders, ih hrest.symm, hname]

theorem validateProviders_eq_ok {names : BTreeSet Text} : validateProviders providers names = .ok () ↔
    (∀ provider ∈ providers, Trimmed provider.name.str ∧ provider.name ∉ names) ∧ (providers.map (·.name)).Nodup := by
  induction providers generalizing names with
  | nil => simp [validateProviders]
  | cons provider rest ih =>
      rw [validateProviders, List.forall_mem_cons, List.map_cons, List.nodup_cons]
      by_cases htrimmed : Trimmed provider.name.str
      · rw [if_neg (not_not.mpr htrimmed)]
        by_cases hin : provider.name ∈ names
        · rw [if_pos (Std.ExtTreeSet.contains_iff_mem.mpr hin)]
          simp [hin]
        · rw [if_neg (fun h => hin (Std.ExtTreeSet.contains_iff_mem.mp h)), ih]
          simp only [mem_insert, not_or, List.mem_map]
          constructor
          · rintro ⟨hrest, hnodup⟩
            refine ⟨⟨⟨htrimmed, hin⟩, fun other ho => ⟨(hrest other ho).1, (hrest other ho).2.2⟩⟩, ?_, hnodup⟩
            rintro ⟨other, ho, hsame⟩
            exact (hrest other ho).2.1 hsame
          · rintro ⟨⟨-, hrest⟩, hnew, hnodup⟩
            refine ⟨fun other ho => ⟨(hrest other ho).1, ?_, (hrest other ho).2⟩, hnodup⟩
            exact fun hsame => hnew ⟨other, ho, hsame⟩
      · rw [if_pos htrimmed]
        simp [htrimmed]

def sortProviders (providers : List RetrievalProvider) : List RetrievalProvider :=
  providers.mergeSort fun left right => (compare left.name right.name).isLE

theorem names_sortProviders {others : List RetrievalProvider}
    (h : (providers.map (·.name)).Perm (others.map (·.name))) :
    (sortProviders providers).map (·.name) = (sortProviders others).map (·.name) := by
  have hmap (providers : List RetrievalProvider) : (sortProviders providers).map (·.name) =
      (providers.map (·.name)).mergeSort fun a b => (compare a b).isLE :=
    List.map_mergeSort fun _ _ _ _ => rfl
  rw [hmap, hmap]
  exact sort_eq_of_perm h fun a _ b _ => Std.LawfulEqOrd.eq_of_compare

theorem outcomes_sortProviders {others : List RetrievalProvider}
    (h : (providers.map (outcome query)).Perm (others.map (outcome query))) (hnodup : (providers.map (·.name)).Nodup) :
    (sortProviders providers).map (outcome query) = (sortProviders others).map (outcome query) := by
  have hmap (providers : List RetrievalProvider) : (sortProviders providers).map (outcome query) =
      (providers.map (outcome query)).mergeSort fun a b => (compareOn Prod.fst a b).isLE :=
    List.map_mergeSort fun _ _ _ _ => rfl
  rw [hmap, hmap]
  refine sort_eq_of_perm h fun a ha b hb heq => ?_
  obtain ⟨p, hp, rfl⟩ := List.mem_map.mp ha
  obtain ⟨q, hq, rfl⟩ := List.mem_map.mp hb
  have hname : p.name = q.name := Std.LawfulEqOrd.eq_of_compare heq
  rw [List.inj_on_of_nodup_map hnodup hp hq hname]

/-- The fusion sees no more of the providers than their outcomes, in no order. -/
theorem fuseRetrieval_congr {others : List RetrievalProvider}
    (h : (providers.map (outcome query)).Perm (others.map (outcome query))) :
    fuseRetrieval providers query = fuseRetrieval others query := by
  have hperm : (providers.map (·.name)).Perm (others.map (·.name)) := by
    have hfst := h.map Prod.fst
    rwa [List.map_map, List.map_map] at hfst
  have hnames := names_sortProviders hperm
  have hvalid : validateProviders (sortProviders providers) ∅ = validateProviders (sortProviders others) ∅ :=
    validateProviders_congr hnames
  rw [fuseRetrieval, fuseRetrieval]
  change (validateProviders (sortProviders providers) ∅ >>= _) = (validateProviders (sortProviders others) ∅ >>= _)
  rw [← hvalid]
  cases hresult : validateProviders (sortProviders providers) ∅ with
  | error e => rfl
  | ok _ =>
      have hnodup := (validateProviders_eq_ok.mp hresult).2
      have hsorted : (sortProviders providers).Perm providers := List.mergeSort_perm providers _
      rw [(hsorted.map (·.name)).nodup_iff] at hnodup
      change ((sortProviders providers).foldlM (fuseProvider query) ∅ >>= _) =
        ((sortProviders others).foldlM (fuseProvider query) ∅ >>= _)
      rw [foldlM_outcomes, foldlM_outcomes, outcomes_sortProviders h hnodup]

/-- The same provider, whose hits come in another order. -/
def SameHits (query : RetrievalQuery) (p q : RetrievalProvider) : Prop :=
  p.name = q.name ∧ Parallel (fun hits others : Vec RetrievalHit => hits.items.Perm others.items) (p.retrieve query)
    (q.retrieve query)

/-- The same providers in another order, each with its hits in another order. -/
def Rearranged (query : RetrievalQuery) (providers others : List RetrievalProvider) : Prop :=
  ∃ middle, providers.Perm middle ∧ List.Forall₂ (SameHits query) middle others

theorem rankHits_of_perm {others : List RetrievalHit} (h : hits.Perm others) :
    rankHits query hits = rankHits query others := by
  have hsort : (hits.filter (channelAllowed query)).mergeSort (fun left right => (hitOrder left right).isLE) =
      (others.filter (channelAllowed query)).mergeSort fun left right => (hitOrder left right).isLE :=
    sort_eq_of_perm (h.filter _) fun a _ b _ => Std.LawfulEqCmp.eq_of_compare
  rw [rankHits, rankHits, hsort]

theorem outcome_of_sameHits {p q : RetrievalProvider} (h : SameHits query p q) : outcome query p = outcome query q := by
  obtain ⟨hname, hhits⟩ := h
  rw [outcome, outcome, hname]
  exact congrArg (Prod.mk q.name) (eq_of_parallel (hhits.map fun _ _ hperm => rankHits_of_perm hperm))

theorem Rearranged.outcomes {others : List RetrievalProvider} (h : Rearranged query providers others) :
    (providers.map (outcome query)).Perm (others.map (outcome query)) := by
  obtain ⟨middle, hperm, hsame⟩ := h
  have hmap : middle.map (outcome query) = others.map (outcome query) := by
    clear hperm
    induction hsame with
    | nil => rfl
    | cons h _ ih => rw [List.map_cons, List.map_cons, outcome_of_sameHits h, ih]
  rw [← hmap]
  exact hperm.map _

end WeavatrixMemory.Context.Retrieval
