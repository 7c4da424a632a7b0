import Mathlib.Algebra.Order.BigOperators.Group.List
import WeavatrixMemory.Common
import WeavatrixMemory.Context.Retrieval
import WeavatrixMemory.Extraction.Key

namespace WeavatrixMemory.Context.Fusion

open Identity Outcome Ranking Sorting Retrieval Extraction.Key

variable {query : RetrievalQuery} {providers : List RetrievalProvider} {hits : List RetrievalHit}

def bestHits (query : RetrievalQuery) (hits : List RetrievalHit) : Finset RetrievalHit :=
  leaders hitOrder RetrievalHit.entity (hits.filter (channelAllowed query))

def position (query : RetrievalQuery) (hits : List RetrievalHit) (hit : RetrievalHit) : Nat :=
  place hitOrder (bestHits query hits) hit

theorem retainUnseen_eq {seen : BTreeSet EntityId} {keys : Finset EntityId} (h : ∀ id, id ∈ seen ↔ id ∈ keys)
    (hits : List RetrievalHit) : retainUnseen seen hits = firsts RetrievalHit.entity keys hits := by
  induction hits generalizing seen keys with
  | nil => rfl
  | cons hit rest ih =>
      rw [retainUnseen, firsts, ih h, ih fun id => by rw [mem_insert, Finset.mem_insert, h]]
      by_cases hin : hit.entity ∈ keys
      · rw [if_pos hin, if_pos (Std.ExtTreeSet.contains_iff_mem.mpr ((h _).mpr hin))]
      · rw [if_neg hin, if_neg fun hc => hin ((h _).mp (Std.ExtTreeSet.contains_iff_mem.mp hc))]

def unseenHits (query : RetrievalQuery) (hits : List RetrievalHit) : List RetrievalHit :=
  firsts RetrievalHit.entity ∅
    ((hits.filter (channelAllowed query)).mergeSort fun left right => (hitOrder left right).isLE)

theorem rankHits_eq : rankHits query hits = (unseenHits query hits).take query.limit := by
  rw [rankHits, unseenHits, retainUnseen_eq]
  simp

theorem toFinset_unseenHits : (unseenHits query hits).toFinset = bestHits query hits := by
  ext hit
  rw [List.mem_toFinset, unseenHits, mem_firsts_iff (pairwise_sort hitOrder _), bestHits,
    leaders_of_perm (List.mergeSort_perm _ _)]

theorem nodup_unseenHits : (unseenHits query hits).Nodup := List.Nodup.of_map _ nodup_keys_firsts

theorem place_unseenHits {i : Nat} {hit : RetrievalHit} (h : (unseenHits query hits)[i]? = some hit) :
    position query hits hit = i + 1 := by
  rw [position, ← toFinset_unseenHits]
  exact place_eq ((pairwise_sort hitOrder _).sublist firsts_sublist) nodup_unseenHits h

theorem getElem?_rankHits {i : Nat} {hit : RetrievalHit} : (rankHits query hits)[i]? = some hit ↔
    hit ∈ bestHits query hits ∧ position query hits hit = i + 1 ∧ i < query.limit := by
  rw [rankHits_eq, List.getElem?_take, ← toFinset_unseenHits, List.mem_toFinset]
  constructor
  · intro h
    split at h
    next hlt => exact ⟨List.mem_of_getElem? h, place_unseenHits h, hlt⟩
    next => cases h
  · rintro ⟨hmem, hplace, hlt⟩
    obtain ⟨j, hj⟩ := List.mem_iff_getElem?.mp hmem
    have heq := place_unseenHits hj
    obtain rfl : j = i := by omega
    rw [if_pos hlt, hj]

theorem nodup_rankHits : ((rankHits query hits).map (·.entity)).Nodup := by
  rw [rankHits_eq]
  exact nodup_keys_firsts.sublist ((List.take_sublist _ _).map _)

def sourceAt (provider : Text) (ranked : RetrievalHit × Nat) : EntityId × RetrievalSource :=
  (ranked.1.entity, ⟨provider, ranked.1.channel, ranked.2 + 1, ranked.1.score⟩)

def sourcesOf (query : RetrievalQuery) (provider : RetrievalProvider) : List (EntityId × RetrievalSource) :=
  match provider.retrieve query with
  | .ok hits => (rankHits query hits.items).zipIdx.map (sourceAt provider.name)
  | .error _ => []

/-- A provider ranks the entity within the limit, by its best hit. -/
def IsSource (query : RetrievalQuery) (provider : RetrievalProvider) (entity : EntityId) (source : RetrievalSource) :
    Prop :=
  ∃ hits, provider.retrieve query = .ok hits ∧ ∃ hit ∈ bestHits query hits.items, hit.entity = entity ∧
    source = ⟨provider.name, hit.channel, position query hits.items hit, hit.score⟩ ∧ source.rank ≤ query.limit

theorem mem_sourcesOf {provider : RetrievalProvider} {entity : EntityId} {source : RetrievalSource} :
    (entity, source) ∈ sourcesOf query provider ↔ IsSource query provider entity source := by
  rw [sourcesOf, IsSource]
  cases hresult : provider.retrieve query with
  | error e => simp
  | ok hits =>
      dsimp only
      rw [List.mem_map]
      constructor
      · rintro ⟨⟨hit, i⟩, hmem, heq⟩
        obtain ⟨rfl, rfl⟩ := Prod.mk.inj heq
        obtain ⟨hbest, hplace, hlt⟩ := getElem?_rankHits.mp (List.mem_zipIdx_iff_getElem?.mp hmem)
        exact ⟨hits, rfl, hit, hbest, rfl, by rw [hplace], hlt⟩
      · rintro ⟨_, ⟨⟩, hit, hbest, rfl, rfl, hle⟩
        obtain ⟨i, hi⟩ : ∃ i, (unseenHits query hits.items)[i]? = some hit := by
          rw [← List.mem_iff_getElem?, ← List.mem_toFinset, toFinset_unseenHits]
          exact hbest
        have hplace := place_unseenHits hi
        dsimp only at hle
        refine ⟨(hit, i), List.mem_zipIdx_iff_getElem?.mpr (getElem?_rankHits.mpr ⟨hbest, hplace, by omega⟩), ?_⟩
        rw [sourceAt, hplace]

theorem nodup_sourcesOf {provider : RetrievalProvider} : ((sourcesOf query provider).map (·.1)).Nodup := by
  rw [sourcesOf]
  cases provider.retrieve query with
  | error e => exact List.nodup_nil
  | ok hits =>
      dsimp only
      have hentities : ((rankHits query hits.items).zipIdx.map (sourceAt provider.name)).map (·.1) =
          ((rankHits query hits.items).zipIdx.map Prod.fst).map (·.entity) := by
        rw [List.map_map, List.map_map]
        rfl
      rw [hentities, List.zipIdx_map_fst]
      exact nodup_rankHits

section Grouping

variable {entity : EntityId} {xs : List (EntityId × RetrievalSource)}

def addSource (fused : BTreeMap EntityId FusedRetrievalHit) (x : EntityId × RetrievalSource) :
    BTreeMap EntityId FusedRetrievalHit :=
  let entry := fused[x.1]?.getD ⟨x.1, 0, []⟩
  fused.insert x.1
    { entry with
      fusedScore := u64SaturatingAdd entry.fusedScore (UInt64.ofNat (contribution x.2.rank))
      sources := entry.sources ++ [x.2] }

def sourcesFor (entity : EntityId) (xs : List (EntityId × RetrievalSource)) : List RetrievalSource :=
  (xs.filter fun x => x.1 = entity).map (·.2)

def totalScore (sources : List RetrievalSource) : UInt64 :=
  sources.foldl (fun total source => u64SaturatingAdd total (UInt64.ofNat (contribution source.rank))) 0

theorem totalScore_concat (sources : List RetrievalSource) (source : RetrievalSource) :
    totalScore (sources ++ [source]) =
      u64SaturatingAdd (totalScore sources) (UInt64.ofNat (contribution source.rank)) := by
  rw [totalScore, List.foldl_append]
  rfl

theorem sourcesFor_append {ys : List (EntityId × RetrievalSource)} :
    sourcesFor entity (xs ++ ys) = sourcesFor entity xs ++ sourcesFor entity ys := by
  rw [sourcesFor, List.filter_append, List.map_append]
  rfl

theorem mem_sourcesFor {source : RetrievalSource} : source ∈ sourcesFor entity xs ↔ (entity, source) ∈ xs := by
  rw [sourcesFor, List.mem_map]
  constructor
  · rintro ⟨⟨other, source⟩, hx, rfl⟩
    obtain ⟨hmem, hsame⟩ := List.mem_filter.mp hx
    rw [← of_decide_eq_true hsame]
    exact hmem
  · intro hmem
    exact ⟨(entity, source), List.mem_filter.mpr ⟨hmem, decide_eq_true rfl⟩, rfl⟩

theorem getElem?_addSources : (xs.foldl addSource ∅)[entity]? =
    if sourcesFor entity xs = [] then none
    else some ⟨entity, totalScore (sourcesFor entity xs), sourcesFor entity xs⟩ := by
  induction xs using List.reverseRecOn with
  | nil => rfl
  | append_singleton xs x ih =>
      rw [List.foldl_append, List.foldl_cons, List.foldl_nil, addSource, getElem?_insert, sourcesFor_append]
      by_cases hx : entity = x.1
      · subst hx
        have hone : sourcesFor x.1 [x] = [x.2] := by simp [sourcesFor]
        rw [if_pos rfl, ih, hone, if_neg (List.append_ne_nil_of_right_ne_nil _ (List.cons_ne_nil _ _)),
          totalScore_concat]
        split
        next hnil =>
          rw [hnil]
          rfl
        next => rfl
      · have hnone : sourcesFor entity [x] = [] := by simp [sourcesFor, Ne.symm hx]
        rw [if_neg hx, ih, hnone, List.append_nil]

theorem u64SaturatingAdd_toNat (a b : UInt64) :
    (u64SaturatingAdd a b).toNat = min (2 ^ 64 - 1) (a.toNat + b.toNat) := by
  rw [u64SaturatingAdd]
  split
  next h =>
    rw [UInt64.toNat_add, Nat.mod_eq_of_lt h]
    omega
  next h =>
    have hmax : (UInt64.ofNat (2 ^ 64 - 1)).toNat = 2 ^ 64 - 1 := by decide
    omega

theorem contribution_le (rank : Nat) : contribution rank ≤ rrfScale := Nat.div_le_self _ _

theorem contribution_toNat (rank : Nat) : (UInt64.ofNat (contribution rank)).toNat = contribution rank := by
  have h := contribution_le rank
  rw [rrfScale] at h
  exact UInt64.toNat_ofNat_of_lt' (by rw [UInt64.size]; omega)

theorem totalScore_toNat (sources : List RetrievalSource) : (totalScore sources).toNat =
    min (2 ^ 64 - 1) (sources.map fun source => contribution source.rank).sum := by
  induction sources using List.reverseRecOn with
  | nil => rfl
  | append_singleton sources source ih =>
      rw [totalScore_concat, u64SaturatingAdd_toNat, ih, contribution_toNat, List.map_append, List.sum_append,
        List.map_singleton, List.sum_singleton]
      omega

end Grouping

theorem foldlM_fuseProvider {fused next : BTreeMap EntityId FusedRetrievalHit}
    (h : providers.foldlM (fuseProvider query) fused = .ok next) :
    next = (providers.flatMap (sourcesOf query)).foldl addSource fused := by
  induction providers generalizing fused with
  | nil => exact (Except.ok.inj h).symm
  | cons provider rest ih =>
      rw [List.foldlM_cons, fuseProvider] at h
      rw [List.flatMap_cons, List.foldl_append, sourcesOf]
      cases hresult : provider.retrieve query with
      | error e =>
          rw [hresult] at h
          cases h
      | ok hits =>
          rw [hresult] at h
          rw [ih h, List.foldl_map]
          rfl

def topEntities (query : RetrievalQuery) (provider : RetrievalProvider) : Finset EntityId :=
  match provider.retrieve query with
  | .ok hits =>
      ((bestHits query hits.items).filter fun hit => position query hits.items hit ≤ query.limit).image (·.entity)
  | .error _ => ∅

def rankedEntities (providers : List RetrievalProvider) (query : RetrievalQuery) : Finset EntityId :=
  providers.foldr (fun provider entities => topEntities query provider ∪ entities) ∅

theorem mem_topEntities {provider : RetrievalProvider} {entity : EntityId} :
    entity ∈ topEntities query provider ↔ ∃ source, IsSource query provider entity source := by
  rw [topEntities]
  constructor
  · intro h
    cases hresult : provider.retrieve query with
    | error e =>
        rw [hresult] at h
        cases h
    | ok hits =>
        rw [hresult] at h
        obtain ⟨hit, hmem, hentity⟩ := Finset.mem_image.mp h
        obtain ⟨hbest, hle⟩ := Finset.mem_filter.mp hmem
        exact ⟨_, hits, hresult, hit, hbest, hentity, rfl, hle⟩
  · rintro ⟨source, hits, hresult, hit, hbest, hentity, rfl, hle⟩
    rw [hresult]
    exact Finset.mem_image.mpr ⟨hit, Finset.mem_filter.mpr ⟨hbest, hle⟩, hentity⟩

theorem mem_rankedEntities {entity : EntityId} : entity ∈ rankedEntities providers query ↔
    ∃ provider ∈ providers, ∃ source, IsSource query provider entity source := by
  rw [rankedEntities]
  induction providers with
  | nil => simp
  | cons provider rest ih =>
      rw [List.foldr_cons, Finset.mem_union, ih, mem_topEntities]
      simp only [List.mem_cons, exists_eq_or_imp]

/-- The ranking by reciprocal ranks: a total is held at the largest `u64`. -/
structure WellFormed (providers : List RetrievalProvider) (query : RetrievalQuery) (out : List FusedRetrievalHit) :
    Prop where
  ranked : ∀ hit ∈ out, hit.entity ∈ rankedEntities providers query
  distinct : (out.map (·.entity)).Nodup
  length : out.length = min query.limit (rankedEntities providers query).card
  sorted : out.Pairwise fun left right => right.fusedScore < left.fusedScore ∨
    left.fusedScore = right.fusedScore ∧ compare left.entity right.entity = .lt
  score : ∀ hit ∈ out, hit.fusedScore.toNat =
    min (2 ^ 64 - 1) (hit.sources.map fun source => 1000000000 / (60 + source.rank)).sum
  sources : ∀ hit ∈ out, ∀ source, source ∈ hit.sources ↔
    ∃ provider ∈ providers, IsSource query provider hit.entity source
  onePerProvider : ∀ hit ∈ out, (hit.sources.map (·.provider)).Nodup

def allSources (query : RetrievalQuery) (providers : List RetrievalProvider) : List (EntityId × RetrievalSource) :=
  (sortProviders providers).flatMap (sourcesOf query)

def fusedHits (query : RetrievalQuery) (providers : List RetrievalProvider) : List FusedRetrievalHit :=
  valuesOf ((allSources query providers).foldl addSource ∅)

theorem fuseRetrieval_eq_ok {out : List FusedRetrievalHit} (h : fuseRetrieval providers query = .ok out) :
    (providers.map (·.name)).Nodup ∧
      out = ((fusedHits query providers).mergeSort
        fun left right => (fusedOrder left right).isLE).take query.limit := by
  rw [fuseRetrieval] at h
  change (validateProviders (sortProviders providers) ∅ >>= fun _ =>
    (sortProviders providers).foldlM (fuseProvider query) ∅ >>= _) = _ at h
  cases hvalid : validateProviders (sortProviders providers) ∅ with
  | error e =>
      rw [hvalid] at h
      cases h
  | ok _ =>
      rw [hvalid] at h
      have hnodup := (validateProviders_eq_ok.mp hvalid).2
      have hsorted : (sortProviders providers).Perm providers := List.mergeSort_perm providers _
      rw [(hsorted.map (·.name)).nodup_iff] at hnodup
      refine ⟨hnodup, ?_⟩
      change ((sortProviders providers).foldlM (fuseProvider query) ∅ >>= _) = _ at h
      cases hfused : (sortProviders providers).foldlM (fuseProvider query) ∅ with
      | error e =>
          rw [hfused] at h
          cases h
      | ok fused =>
          rw [hfused] at h
          rw [← Except.ok.inj h, fusedHits, allSources, ← foldlM_fuseProvider hfused]

theorem mem_allSources {entity : EntityId} {source : RetrievalSource} :
    (entity, source) ∈ allSources query providers ↔ ∃ provider ∈ providers, IsSource query provider entity source := by
  rw [allSources, List.mem_flatMap]
  simp only [mem_sourcesOf, sortProviders, List.mem_mergeSort]

theorem mem_fusedHits {hit : FusedRetrievalHit} : hit ∈ fusedHits query providers ↔
    sourcesFor hit.entity (allSources query providers) ≠ [] ∧
      hit.fusedScore = totalScore (sourcesFor hit.entity (allSources query providers)) ∧
      hit.sources = sourcesFor hit.entity (allSources query providers) := by
  rw [fusedHits, mem_valuesOf]
  simp only [getElem?_addSources]
  constructor
  · rintro ⟨entity, h⟩
    split at h
    next => cases h
    next hne =>
      obtain rfl := Option.some.inj h
      exact ⟨hne, rfl, rfl⟩
  · rintro ⟨hne, hscore, hsources⟩
    refine ⟨hit.entity, ?_⟩
    rw [if_neg hne, ← hscore, ← hsources]

theorem nodup_fusedHits : ((fusedHits query providers).map (·.entity)).Nodup := by
  refine nodup_valuesOf fun entity hit h => ?_
  rw [getElem?_addSources] at h
  split at h
  next => cases h
  next => rw [← Option.some.inj h]

theorem entity_fusedHits {hit : FusedRetrievalHit} (h : hit ∈ fusedHits query providers) :
    hit.entity ∈ rankedEntities providers query := by
  obtain ⟨source, hsource⟩ := List.exists_mem_of_ne_nil _ (mem_fusedHits.mp h).1
  obtain ⟨provider, hp, his⟩ := mem_allSources.mp (mem_sourcesFor.mp hsource)
  exact mem_rankedEntities.mpr ⟨provider, hp, source, his⟩

theorem length_fusedHits : (fusedHits query providers).length = (rankedEntities providers query).card := by
  have hentities : ((fusedHits query providers).map (·.entity)).toFinset = rankedEntities providers query := by
    ext entity
    rw [List.mem_toFinset, List.mem_map]
    constructor
    · rintro ⟨hit, hmem, rfl⟩
      exact entity_fusedHits hmem
    · rw [mem_rankedEntities]
      rintro ⟨provider, hp, source, his⟩
      have hsource := mem_sourcesFor.mpr (mem_allSources.mpr ⟨provider, hp, his⟩)
      let hit : FusedRetrievalHit := ⟨entity, totalScore (sourcesFor entity (allSources query providers)),
        sourcesFor entity (allSources query providers)⟩
      exact ⟨hit, mem_fusedHits.mpr ⟨List.ne_nil_of_mem hsource, rfl, rfl⟩, rfl⟩
  rw [← hentities, List.toFinset_card_of_nodup nodup_fusedHits, List.length_map]

theorem length_sourcesFor_le {provider : RetrievalProvider} {entity : EntityId} :
    (sourcesFor entity (sourcesOf query provider)).length ≤ 1 := by
  have hkeys : (((sourcesOf query provider).filter fun x => x.1 = entity).map (·.1)).Nodup :=
    (List.filter_sublist.map _).nodup nodup_sourcesOf
  have hall : ∀ key ∈ ((sourcesOf query provider).filter fun x => x.1 = entity).map (·.1), key = entity := by
    intro key hkey
    obtain ⟨x, hx, rfl⟩ := List.mem_map.mp hkey
    exact of_decide_eq_true (List.mem_filter.mp hx).2
  rw [List.eq_replicate_of_mem hall, List.nodup_replicate, List.length_map] at hkeys
  rw [sourcesFor, List.length_map]
  exact hkeys

theorem sourcesFor_flatMap {entity : EntityId} (providers : List RetrievalProvider) :
    sourcesFor entity (providers.flatMap (sourcesOf query)) =
      providers.flatMap fun provider => sourcesFor entity (sourcesOf query provider) := by
  induction providers with
  | nil => rfl
  | cons provider rest ih => rw [List.flatMap_cons, List.flatMap_cons, sourcesFor_append, ih]

theorem provider_of_isSource {provider : RetrievalProvider} {entity : EntityId} {source : RetrievalSource}
    (h : IsSource query provider entity source) : source.provider = provider.name := by
  obtain ⟨hits, -, hit, -, -, rfl, -⟩ := h
  rfl

theorem nodup_providers (h : (providers.map (·.name)).Nodup) (entity : EntityId) :
    ((sourcesFor entity (allSources query providers)).map (·.provider)).Nodup := by
  have hsorted : (sortProviders providers).Perm providers := List.mergeSort_perm providers _
  rw [← (hsorted.map (·.name)).nodup_iff, List.Nodup, List.pairwise_map] at h
  have hname {provider : RetrievalProvider} {name : Text}
      (hn : name ∈ (sourcesFor entity (sourcesOf query provider)).map (·.provider)) : name = provider.name := by
    obtain ⟨source, hs, rfl⟩ := List.mem_map.mp hn
    exact provider_of_isSource (mem_sourcesOf.mp (mem_sourcesFor.mp hs))
  rw [allSources, sourcesFor_flatMap, List.map_flatMap, List.nodup_flatMap]
  constructor
  · intro provider _
    have hall : ∀ name ∈ (sourcesFor entity (sourcesOf query provider)).map (·.provider), name = provider.name :=
      fun _ => hname
    rw [List.eq_replicate_of_mem hall, List.nodup_replicate, List.length_map]
    exact length_sourcesFor_le
  · refine h.imp fun {p q} hne name hp hq => ?_
    exact hne ((hname hp).symm.trans (hname hq))

theorem compare_eq_lt {a b : UInt64} : compare a b = .lt ↔ a < b := Std.compare_eq_lt

theorem strict_of_fusedOrder {left right : FusedRetrievalHit} (h : (fusedOrder left right).isLE = true)
    (hne : left.entity ≠ right.entity) : right.fusedScore < left.fusedScore ∨
      left.fusedScore = right.fusedScore ∧ compare left.entity right.entity = .lt := by
  rw [fusedOrder] at h
  cases hscore : compare right.fusedScore left.fusedScore with
  | lt => exact .inl (compare_eq_lt.mp hscore)
  | eq =>
      refine .inr ⟨(Std.LawfulEqOrd.eq_of_compare hscore).symm, ?_⟩
      rw [hscore] at h
      cases hentity : compare left.entity right.entity with
      | lt => rfl
      | eq => exact absurd (Std.LawfulEqOrd.eq_of_compare hentity) hne
      | gt =>
          rw [hentity] at h
          cases h
  | gt =>
      rw [hscore] at h
      cases h

theorem fuseRetrieval_wellFormed {out : List FusedRetrievalHit} (h : fuseRetrieval providers query = .ok out) :
    WellFormed providers query out := by
  obtain ⟨hnodup, rfl⟩ := fuseRetrieval_eq_ok h
  have hsorted := List.mergeSort_perm (fusedHits query providers) fun left right => (fusedOrder left right).isLE
  have hdistinct := ((hsorted.map (·.entity)).nodup_iff.mpr nodup_fusedHits).sublist
    ((List.take_sublist query.limit _).map _)
  have hfused {hit : FusedRetrievalHit} (hhit : hit ∈ ((fusedHits query providers).mergeSort fun left right =>
      (fusedOrder left right).isLE).take query.limit) := hsorted.mem_iff.mp (List.mem_of_mem_take hhit)
  have hmem {hit : FusedRetrievalHit} (hhit) := mem_fusedHits.mp (@hfused hit hhit)
  exact
    { ranked := fun hit hhit => entity_fusedHits (hfused hhit)
      distinct := hdistinct
      length := by rw [List.length_take, hsorted.length_eq, length_fusedHits]
      sorted := by
        rw [List.Nodup, List.pairwise_map] at hdistinct
        exact ((pairwise_sort fusedOrder _).sublist (List.take_sublist _ _)).imp₂
          (fun _ _ => strict_of_fusedOrder) hdistinct
      score := fun hit hhit => by
        obtain ⟨-, hscore, hsources⟩ := hmem hhit
        rw [hscore, hsources, totalScore_toNat]
        rfl
      sources := fun hit hhit source => by rw [(hmem hhit).2.2, mem_sourcesFor, mem_allSources]
      onePerProvider := fun hit hhit => by
        rw [(hmem hhit).2.2]
        exact nodup_providers hnodup hit.entity }

theorem foldlM_succeeds (h : ∀ provider ∈ providers, ∃ hits, provider.retrieve query = .ok hits)
    (fused : BTreeMap EntityId FusedRetrievalHit) :
    ∃ next, providers.foldlM (fuseProvider query) fused = .ok next := by
  induction providers generalizing fused with
  | nil => exact ⟨fused, rfl⟩
  | cons provider rest ih =>
      obtain ⟨⟨hits, hresult⟩, hrest⟩ := List.forall_mem_cons.mp h
      rw [List.foldlM_cons, fuseProvider, hresult]
      exact ih hrest _

theorem fuseRetrieval_succeeds (hnames : ∀ provider ∈ providers, Trimmed provider.name.str)
    (hnodup : (providers.map (·.name)).Nodup)
    (hresults : ∀ provider ∈ providers, ∃ hits, provider.retrieve query = .ok hits) :
    ∃ out, fuseRetrieval providers query = .ok out := by
  have hsorted : (sortProviders providers).Perm providers := List.mergeSort_perm providers _
  have hvalid : validateProviders (sortProviders providers) ∅ = .ok () := by
    rw [validateProviders_eq_ok, (hsorted.map (·.name)).nodup_iff]
    refine ⟨fun provider hp => ⟨hnames provider (hsorted.mem_iff.mp hp), ?_⟩, hnodup⟩
    simp
  obtain ⟨fused, hfused⟩ := foldlM_succeeds (fun provider hp => hresults provider (hsorted.mem_iff.mp hp)) ∅
  rw [fuseRetrieval]
  change ∃ out, (validateProviders (sortProviders providers) ∅ >>= fun _ =>
    (sortProviders providers).foldlM (fuseProvider query) ∅ >>= _) = _
  rw [hvalid]
  change ∃ out, ((sortProviders providers).foldlM (fuseProvider query) ∅ >>= _) = _
  rw [hfused]
  exact ⟨_, rfl⟩

/-- The fusion depends neither on the order of the providers nor on that of their hits, and what it returns is
the ranking by reciprocal ranks. -/
theorem fuseRetrieval_ranks (providers : List RetrievalProvider) (query : RetrievalQuery) :
    (∀ others, Rearranged query providers others → fuseRetrieval others query = fuseRetrieval providers query) ∧
      ∀ out, fuseRetrieval providers query = .ok out → WellFormed providers query out :=
  ⟨fun _ h => (fuseRetrieval_congr h.outcomes).symm, fun _ => fuseRetrieval_wellFormed⟩

def answering (name : Text) (hits : Vec RetrievalHit) : RetrievalProvider := ⟨name, fun _ => .ok hits⟩

def firstHit : RetrievalHit := ⟨Common.task, .literal, 1⟩

def firstQuery : RetrievalQuery := ⟨Common.taskKind, 1, ∅⟩

def lexicalHits : List RetrievalHit := [⟨Common.task, .lexical, 5⟩, ⟨Common.file, .lexical, 3⟩]

def semantic : RetrievalProvider := answering ⟨"semantic", by decide⟩ ⟨[⟨Common.file, .semantic, 9⟩], by decide⟩

theorem fuseRetrieval_ranks_swapped :
    fuseRetrieval [semantic, answering ⟨"lexical", by decide⟩ ⟨lexicalHits.reverse, by decide⟩] firstQuery =
      fuseRetrieval [answering ⟨"lexical", by decide⟩ ⟨lexicalHits, by decide⟩, semantic] firstQuery ∧
    ∃ out, fuseRetrieval [answering ⟨"lexical", by decide⟩ ⟨lexicalHits, by decide⟩, semantic] firstQuery = .ok out ∧
      WellFormed [answering ⟨"lexical", by decide⟩ ⟨lexicalHits, by decide⟩, semantic] firstQuery out := by
  have hlexical : SameHits firstQuery (answering ⟨"lexical", by decide⟩ ⟨lexicalHits, by decide⟩)
      (answering ⟨"lexical", by decide⟩ ⟨lexicalHits.reverse, by decide⟩) :=
    ⟨rfl, (List.reverse_perm lexicalHits).symm⟩
  have hsemantic : SameHits firstQuery semantic semantic := ⟨rfl, List.Perm.refl _⟩
  obtain ⟨out, hout⟩ := @fuseRetrieval_succeeds firstQuery
    [answering ⟨"lexical", by decide⟩ ⟨lexicalHits, by decide⟩, semantic]
    (List.forall_mem_cons.mpr ⟨by decide, List.forall_mem_singleton.mpr (by decide)⟩) (by decide)
    (List.forall_mem_cons.mpr ⟨⟨_, rfl⟩, List.forall_mem_singleton.mpr ⟨_, rfl⟩⟩)
  exact ⟨(fuseRetrieval_ranks _ firstQuery).1 _ ⟨_, List.Perm.swap _ _ _, .cons hsemantic (.cons hlexical .nil)⟩,
    out, hout, (fuseRetrieval_ranks _ firstQuery).2 out hout⟩

section Saturation

/-- A provider with one hit, the same for every name. -/
def single (name : Text) : RetrievalProvider := answering name ⟨[firstHit], by decide⟩

theorem isSource_single {name : Text} {entity : EntityId} {source : RetrievalSource} :
    IsSource firstQuery (single name) entity source ↔ entity = Common.task ∧ source = ⟨name, .literal, 1, 1⟩ := by
  have hbest : firstHit ∈ bestHits firstQuery [firstHit] := by decide +kernel
  have hplace : position firstQuery [firstHit] firstHit = 1 := by decide +kernel
  constructor
  · rintro ⟨hits, hresult, hit, hhit, rfl, rfl, -⟩
    obtain rfl := Except.ok.inj hresult
    obtain rfl := List.mem_singleton.mp (List.mem_of_mem_filter (mem_leaders.mp hhit).1)
    rw [hplace]
    exact ⟨rfl, rfl⟩
  · rintro ⟨rfl, rfl⟩
    exact ⟨_, rfl, firstHit, hbest, rfl, by rw [hplace]; rfl, le_rfl⟩

theorem isSource_singles {names : List Text} {entity : EntityId} {source : RetrievalSource} :
    (∃ provider ∈ names.map single, IsSource firstQuery provider entity source) ↔
      entity = Common.task ∧ ∃ name ∈ names, source = ⟨name, .literal, 1, 1⟩ := by
  constructor
  · rintro ⟨provider, hp, hsource⟩
    obtain ⟨name, hname, rfl⟩ := List.mem_map.mp hp
    obtain ⟨hentity, hsource⟩ := isSource_single.mp hsource
    exact ⟨hentity, name, hname, hsource⟩
  · rintro ⟨hentity, name, hname, hsource⟩
    exact ⟨single name, List.mem_map.mpr ⟨name, hname, rfl⟩, isSource_single.mpr ⟨hentity, hsource⟩⟩

theorem fuseRetrieval_singles {names : List Text} (hne : names ≠ []) (hnodup : names.Nodup)
    (htrimmed : ∀ name ∈ names, Trimmed name.str) :
    ∃ hit, fuseRetrieval (names.map single) firstQuery = .ok [hit] ∧
      names.length * 16393442 ≤ (hit.sources.map fun source => 1000000000 / (60 + source.rank)).sum := by
  obtain ⟨out, hout⟩ : ∃ out, fuseRetrieval (names.map single) firstQuery = .ok out := by
    apply fuseRetrieval_succeeds
    · intro provider hp
      obtain ⟨name, hname, rfl⟩ := List.mem_map.mp hp
      exact htrimmed name hname
    · rw [List.map_map]
      exact hnodup.map fun _ _ h => h
    · intro provider hp
      obtain ⟨name, -, rfl⟩ := List.mem_map.mp hp
      exact ⟨_, rfl⟩
  have hwell := fuseRetrieval_wellFormed hout
  obtain ⟨first, hfirst⟩ := List.exists_mem_of_ne_nil names hne
  have htask : Common.task ∈ rankedEntities (names.map single) firstQuery := by
    rw [mem_rankedEntities]
    obtain ⟨provider, hp, hsource⟩ := isSource_singles.mpr ⟨rfl, first, hfirst, rfl⟩
    exact ⟨provider, hp, _, hsource⟩
  have hlength : out.length = 1 := by
    rw [hwell.length]
    exact Nat.min_eq_left (Finset.card_pos.mpr ⟨_, htask⟩)
  obtain ⟨hit, rfl⟩ := List.length_eq_one_iff.mp hlength
  have hmem := List.mem_singleton_self hit
  have hsources := hwell.sources hit hmem
  simp only [isSource_singles] at hsources
  have hentity : hit.entity = Common.task := by
    obtain ⟨provider, hp, source, hsource⟩ := mem_rankedEntities.mp (hwell.ranked hit hmem)
    exact (isSource_singles.mp ⟨provider, hp, hsource⟩).1
  have hnames : names ⊆ hit.sources.map (·.provider) := by
    intro name hname
    exact List.mem_map.mpr ⟨_, (hsources _).mpr ⟨hentity, name, hname, rfl⟩, rfl⟩
  have hleast : ∀ score ∈ hit.sources.map fun source => 1000000000 / (60 + source.rank), 16393442 ≤ score := by
    intro score hscore
    obtain ⟨source, hsource, rfl⟩ := List.mem_map.mp hscore
    obtain ⟨-, name, -, rfl⟩ := (hsources source).mp hsource
    exact (by decide : 16393442 ≤ 1000000000 / (60 + 1))
  refine ⟨hit, hout, ?_⟩
  calc names.length * 16393442 ≤ (hit.sources.map (·.provider)).length * 16393442 :=
        Nat.mul_le_mul_right _ (hnodup.subperm hnames).length_le
    _ = (hit.sources.map fun source => 1000000000 / (60 + source.rank)).length * 16393442 := by
        rw [List.length_map, List.length_map]
    _ ≤ _ := List.card_nsmul_le_sum _ _ hleast

def numbered (i : Fin (2 ^ 41)) : Text where
  str := "p" ++ hex (UInt64.ofNat i)
  fits := by
    have h := utf8ByteSize_ofList_le (hexDigits 16 (UInt64.ofNat i).toNat)
    rw [length_hexDigits] at h
    rw [String.utf8ByteSize_append, hex]
    exact (Nat.add_le_add_left h 1).trans_lt (by decide)

theorem numbered_injective : Function.Injective numbered := by
  intro i j h
  have htail := congrArg (fun t : Text => t.str.toList) h
  simp only [numbered, String.toList_append] at htail
  have hhash := hex_inj (String.ext (List.append_cancel_left htail))
  have hi : i.val < UInt64.size := i.isLt.trans (by decide)
  have hj : j.val < UInt64.size := j.isLt.trans (by decide)
  have hval := congrArg UInt64.toNat hhash
  rw [UInt64.toNat_ofNat_of_lt' hi, UInt64.toNat_ofNat_of_lt' hj] at hval
  exact Fin.ext hval

/-- A sum of that many reciprocal ranks is beyond the largest `u64`. -/
theorem fuseRetrieval_saturates :
    ∃ hit, fuseRetrieval (((List.finRange (2 ^ 41)).map numbered).map single) firstQuery = .ok [hit] ∧
      hit.fusedScore.toNat ≠ (hit.sources.map fun source => 1000000000 / (60 + source.rank)).sum := by
  have hlength : ((List.finRange (2 ^ 41)).map numbered).length = 2 ^ 41 := by
    rw [List.length_map, List.length_finRange]
  obtain ⟨hit, hout, hsum⟩ := @fuseRetrieval_singles ((List.finRange (2 ^ 41)).map numbered)
    (List.ne_nil_of_length_pos (by rw [hlength]; exact Nat.two_pow_pos 41))
    ((List.nodup_finRange _).map numbered_injective) (fun name hname => by
      obtain ⟨i, -, rfl⟩ := List.mem_map.mp hname
      exact trimmed_name rfl (by decide) _)
  refine ⟨hit, hout, fun h => ?_⟩
  have hbound := hit.fusedScore.toNat_lt
  rw [hlength, ← h] at hsum
  omega

end Saturation

end WeavatrixMemory.Context.Fusion
