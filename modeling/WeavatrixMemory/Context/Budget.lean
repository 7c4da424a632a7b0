import WeavatrixMemory.Context.Bounds
import WeavatrixMemory.Library.Budgets

namespace WeavatrixMemory.Context.Budget

open Error Identity Domain Projection.State Projection.Memory Projection.Invariant Compiler Neighborhood Bounds
open Budgets Outcome

variable {estimator : TokenEstimator} {p : MemoryProjection} {request : ContextRequest}
  {nodes : BTreeMap EntityId MemoryNode} {s : Selection} {fact : MemoryFact}

def priceOf (estimator : TokenEstimator) (nodes : BTreeMap EntityId MemoryNode) (id : EntityId) : Nat :=
  nodes[id]?.elim 0 (nodeTokens estimator)

/-- A fact needs its endpoints, which are paid for once. -/
def pricesOf (estimator : TokenEstimator) (nodes : BTreeMap EntityId MemoryNode) : Prices MemoryFact EntityId where
  cost := factTokens estimator
  needs fact := {fact.source, fact.target}
  price := priceOf estimator nodes

def basketOf (s : Selection) : Basket MemoryFact EntityId := ⟨s.selected.toList.toFinset, s.facts⟩

theorem mem_resources {id : EntityId} : id ∈ (basketOf s).resources ↔ id ∈ s.selected := by
  rw [basketOf, List.mem_toFinset, Std.ExtTreeSet.mem_toList]

def missingNodes (s : Selection) (fact : MemoryFact) : List EntityId :=
  [fact.source, fact.target].filter fun id => !s.selected.contains id

theorem mem_missingNodes {id : EntityId} : id ∈ missingNodes s fact ↔
    (id = fact.source ∨ id = fact.target) ∧ id ∉ s.selected := by
  rw [missingNodes, List.mem_filter, List.mem_cons, List.mem_singleton, Bool.not_eq_true', ← Bool.not_eq_true,
    Std.ExtTreeSet.contains_iff_mem]

def charge (estimator : TokenEstimator) (nodes : BTreeMap EntityId MemoryNode) (s : Selection) (fact : MemoryFact) :
    Nat :=
  factTokens estimator fact + ((missingNodes s fact).map (priceOf estimator nodes)).sum

def skipped (s : Selection) : Selection := { s with omitted := s.omitted + 1 }

def taken (estimator : TokenEstimator) (nodes : BTreeMap EntityId MemoryNode) (s : Selection)
    (fact : MemoryFact) : Selection :=
  { s with
    used := s.used + charge estimator nodes s fact
    selected := (missingNodes s fact).foldl (fun selected id => selected.insert id) s.selected
    facts := s.facts ++ [fact] }

def Found (nodes : BTreeMap EntityId MemoryNode) (fact : MemoryFact) : Prop :=
  nodes.contains fact.source = true ∧ nodes.contains fact.target = true

theorem indexMap_eq {id : EntityId} (h : nodes.contains id = true) : ∃ node, nodes[id]? = some node ∧
    indexMap nodes id = .ok node := by
  rw [Std.ExtTreeMap.contains_eq_isSome_getElem?, Option.isSome_iff_exists] at h
  obtain ⟨node, hn⟩ := h
  exact ⟨node, hn, by rw [indexMap, hn]⟩

theorem mapM_eq_ok {α β : Type} {f : α → Result β} {g : α → β} {xs : List α} (h : ∀ x ∈ xs, f x = .ok (g x)) :
    xs.mapM f = .ok (xs.map g) := by
  induction xs with
  | nil => rfl
  | cons x xs ih =>
      obtain ⟨hx, hxs⟩ := List.forall_mem_cons.mp h
      rw [List.mapM_cons, hx, ok_bind, ih hxs, ok_bind]
      rfl

theorem selectFact_eq (h : Found nodes fact) : selectFact estimator request nodes s fact =
    .ok (if request.tokenBudget < s.used + charge estimator nodes s fact then skipped s
      else taken estimator nodes s fact) := by
  have hcosts : (missingNodes s fact).mapM (fun id => do
      let node ← indexMap nodes id
      .ok (nodeTokens estimator node)) = .ok ((missingNodes s fact).map (priceOf estimator nodes)) := by
    apply mapM_eq_ok
    intro id hid
    have hfound : nodes.contains id = true := by
      obtain ⟨rfl | rfl, -⟩ := mem_missingNodes.mp hid
      · exact h.1
      · exact h.2
    obtain ⟨node, hn, hindex⟩ := indexMap_eq hfound
    rw [hindex, ok_bind, priceOf, hn]
    rfl
  rw [missingNodes] at hcosts
  rw [selectFact, hcosts, ok_bind]
  dsimp only
  rw [charge, missingNodes]
  split <;> rfl

theorem mem_taken {id : EntityId} : id ∈ (taken estimator nodes s fact).selected ↔
    (id = fact.source ∨ id = fact.target) ∨ id ∈ s.selected := by
  rw [taken, mem_insertAll, mem_missingNodes]
  by_cases h : id ∈ s.selected <;> simp [h]

theorem basketOf_taken : basketOf (taken estimator nodes s fact) =
    add (pricesOf estimator nodes) (basketOf s) fact := by
  have hresources : (basketOf (taken estimator nodes s fact)).resources =
      (basketOf s).resources ∪ {fact.source, fact.target} := by
    ext id
    rw [mem_resources, mem_taken, Finset.mem_union, mem_resources, Finset.mem_insert, Finset.mem_singleton,
      or_comm]
  rw [add, pricesOf, ← hresources]
  rfl

/-- A fact from an entity to itself that is not selected yet. -/
def NewLoop (s : Selection) (fact : MemoryFact) : Prop := fact.source = fact.target ∧ fact.source ∉ s.selected

instance decidableNewLoop (s : Selection) (fact : MemoryFact) : Decidable (NewLoop s fact) :=
  inferInstanceAs (Decidable (_ ∧ _))

theorem missing_resources (estimator : TokenEstimator) (nodes : BTreeMap EntityId MemoryNode) (s : Selection)
    (fact : MemoryFact) :
    (pricesOf estimator nodes).needs fact \ (basketOf s).resources = (missingNodes s fact).toFinset := by
  ext id
  rw [Finset.mem_sdiff, mem_resources, List.mem_toFinset, mem_missingNodes, pricesOf, Finset.mem_insert,
    Finset.mem_singleton]

theorem missingNodes_of_newLoop (h : NewLoop s fact) : missingNodes s fact = [fact.source, fact.source] := by
  have hnot : s.selected.contains fact.source = false := by
    rw [← Bool.not_eq_true, Std.ExtTreeSet.contains_iff_mem]
    exact h.2
  rw [missingNodes, ← h.1]
  simp [hnot]

theorem nodup_missingNodes (h : ¬ NewLoop s fact) : (missingNodes s fact).Nodup := by
  by_cases hends : fact.source = fact.target
  · have hin : fact.source ∈ s.selected := by
      by_contra hout
      exact h ⟨hends, hout⟩
    have hempty : missingNodes s fact = [] := by
      rw [List.eq_nil_iff_forall_not_mem]
      intro id hid
      obtain ⟨rfl | rfl, hout⟩ := mem_missingNodes.mp hid
      · exact hout hin
      · exact hout (hends ▸ hin)
    rw [hempty]
    exact List.nodup_nil
  · refine List.Nodup.filter _ (List.nodup_cons.mpr ⟨?_, List.nodup_singleton _⟩)
    rwa [List.mem_singleton]

/-- The charge is what the fact adds to the view, except that a new loop pays twice for its node. -/
theorem charge_eq : charge estimator nodes s fact = extra (pricesOf estimator nodes) (basketOf s) fact +
    if NewLoop s fact then priceOf estimator nodes fact.source else 0 := by
  rw [charge, extra, missing_resources]
  by_cases h : NewLoop s fact
  · rw [if_pos h, missingNodes_of_newLoop h]
    have hset : [fact.source, fact.source].toFinset = {fact.source} := by simp
    rw [hset, Finset.sum_singleton]
    change factTokens estimator fact +
      (priceOf estimator nodes fact.source + (priceOf estimator nodes fact.source + 0)) =
      priceOf estimator nodes fact.source + factTokens estimator fact + priceOf estimator nodes fact.source
    omega
  · rw [if_neg h, Nat.add_zero, List.sum_toFinset _ (nodup_missingNodes h), Nat.add_comm]
    rfl

theorem extra_le_charge : extra (pricesOf estimator nodes) (basketOf s) fact ≤ charge estimator nodes s fact := by
  rw [charge_eq]
  exact Nat.le_add_right _ _

/-- The invariant of the loop over the candidates, after the given ones. -/
structure Spends (estimator : TokenEstimator) (request : ContextRequest) (nodes : BTreeMap EntityId MemoryNode)
    (seeds : List EntityId) (done : List MemoryFact) (s : Selection) : Prop where
  paid : worth (pricesOf estimator nodes) (basketOf s) ≤ s.used
  within : s.used ≤ request.tokenBudget
  found : ∀ id ∈ s.selected, nodes.contains id = true
  seeds : ∀ id ∈ seeds, id ∈ s.selected
  endpoints : ∀ fact ∈ s.facts, fact.source ∈ s.selected ∧ fact.target ∈ s.selected
  facts : s.facts.Sublist done
  counted : s.facts.length + s.omitted = done.length

theorem Spends.turn {seeds : List EntityId} {done : List MemoryFact}
    (h : Spends estimator request nodes seeds done s) (hf : Found nodes fact) :
    ∃ t, selectFact estimator request nodes s fact = .ok t ∧
      Spends estimator request nodes seeds (done ++ [fact]) t := by
  refine ⟨_, selectFact_eq hf, ?_⟩
  have hcounted := h.counted
  split
  next =>
    refine ⟨h.paid, h.within, h.found, h.seeds, h.endpoints, h.facts.trans (List.sublist_append_left _ _), ?_⟩
    rw [skipped, List.length_append, List.length_singleton]
    dsimp only
    omega
  next hfits =>
    refine ⟨?_, Nat.not_lt.mp hfits, fun id hid => ?_, fun id hid => ?_, fun other ho => ?_, ?_, ?_⟩
    · rw [basketOf_taken, worth_add]
      exact Nat.add_le_add h.paid extra_le_charge
    · obtain (rfl | rfl) | hid := mem_taken.mp hid
      · exact hf.1
      · exact hf.2
      · exact h.found id hid
    · exact mem_taken.mpr (.inr (h.seeds id hid))
    · rw [mem_taken, mem_taken]
      obtain ho | ho := List.mem_append.mp ho
      · exact ⟨.inr (h.endpoints other ho).1, .inr (h.endpoints other ho).2⟩
      · obtain rfl := List.mem_singleton.mp ho
        exact ⟨.inl (.inl rfl), .inl (.inr rfl)⟩
    · exact h.facts.append (List.Sublist.refl _)
    · rw [taken, List.length_append, List.length_append]
      dsimp only
      omega

theorem Spends.run {seeds : List EntityId} {done : List MemoryFact} (candidates : List MemoryFact)
    (h : Spends estimator request nodes seeds done s) (hf : ∀ fact ∈ candidates, Found nodes fact) :
    ∃ t, candidates.foldlM (selectFact estimator request nodes) s = .ok t ∧
      Spends estimator request nodes seeds (done ++ candidates) t := by
  induction candidates generalizing s done with
  | nil => exact ⟨s, rfl, (List.append_nil done).symm ▸ h⟩
  | cons fact rest ih =>
      obtain ⟨hfact, hrest⟩ := List.forall_mem_cons.mp hf
      obtain ⟨next, hturn, hnext⟩ := h.turn hfact
      obtain ⟨t, hrun, ht⟩ := ih hnext hrest
      refine ⟨t, ?_, ?_⟩
      · rw [List.foldlM_cons, hturn, ok_bind, hrun]
      · rwa [List.append_assoc, List.singleton_append] at ht

def Ascending {κ : Type} [Ord κ] (ids : List κ) : Prop := ids.Pairwise fun a b => compare a b = .lt

theorem Ascending.nodup {κ : Type} [Ord κ] [Std.TransOrd κ] [Std.LawfulEqOrd κ] {ids : List κ} (h : Ascending ids) :
    ids.Nodup := by
  refine List.Pairwise.imp (fun {a b} hlt heq => ?_) h
  have hself : compare b b = .eq := Std.ReflCmp.compare_self
  rw [heq, hself] at hlt
  cases hlt

theorem lt_of_isLE {κ : Type} [Ord κ] [Std.LawfulEqOrd κ] {a b : κ} (h : (compare a b).isLE = true) (hne : a ≠ b) :
    compare a b = .lt := by
  cases hc : compare a b with
  | lt => rfl
  | eq => exact absurd (Std.LawfulEqOrd.eq_of_compare hc) hne
  | gt =>
      rw [hc] at h
      cases h

theorem dedup_ascending {κ : Type} [Ord κ] [Std.TransOrd κ] [Std.LawfulEqOrd κ] [DecidableEq κ] {ids : List κ}
    (h : ids.Pairwise fun a b => (compare a b).isLE = true) : Ascending (dedup ids) := by
  fun_induction dedup ids with
  | case1 => exact List.Pairwise.nil
  | case2 a => exact List.pairwise_singleton _ _
  | case3 a rest ih => exact ih (List.pairwise_cons.mp h).2
  | case4 a b rest hne ih =>
      obtain ⟨ha, hrest⟩ := List.pairwise_cons.mp h
      refine List.pairwise_cons.mpr ⟨fun c hc => ?_, ih hrest⟩
      have hin := mem_dedup.mp hc
      refine lt_of_isLE (ha c hin) fun heq => ?_
      subst heq
      obtain rfl | hin := List.mem_cons.mp hin
      · exact hne rfl
      · -- Something between two equal identifiers is equal to them.
        have hba := (List.pairwise_cons.mp hrest).1 a hin
        exact hne (Std.LawfulEqOrd.eq_of_compare (Std.OrientedCmp.isLE_antisymm (ha b List.mem_cons_self) hba))

theorem keyLe_trans {α κ : Type} [Ord κ] [Std.TransOrd κ] (key : α → κ) (a b c : α)
    (hab : (compare (key a) (key b)).isLE = true) (hbc : (compare (key b) (key c)).isLE = true) :
    (compare (key a) (key c)).isLE = true := Std.TransCmp.isLE_trans hab hbc

theorem keyLe_total {α κ : Type} [Ord κ] [Std.TransOrd κ] (key : α → κ) (a b : α) :
    ((compare (key a) (key b)).isLE || (compare (key b) (key a)).isLE) = true := by
  have hswap : compare (key b) (key a) = (compare (key a) (key b)).swap := Std.OrientedCmp.eq_swap
  rw [Bool.or_eq_true, hswap]
  cases compare (key a) (key b) <;> simp

theorem pairwise_sorted {α κ : Type} [Ord κ] [Std.TransOrd κ] (key : α → κ) (xs : List α) :
    (xs.mergeSort fun a b => (compare (key a) (key b)).isLE).Pairwise fun a b =>
      (compare (key a) (key b)).isLE = true :=
  List.pairwise_mergeSort (keyLe_trans key) (keyLe_total key) xs

theorem sortedSeeds_ascending (request : ContextRequest) : Ascending (sortedSeeds request) :=
  dedup_ascending (pairwise_sorted id request.seeds)

def seedCost (estimator : TokenEstimator) (request : ContextRequest) (nodes : BTreeMap EntityId MemoryNode) : Nat :=
  ((sortedSeeds request).map (priceOf estimator nodes)).sum

theorem chargeSeeds_eq {seeds : List EntityId} (hseeds : ∀ seed ∈ seeds, nodes.contains seed = true)
    (selected : BTreeSet EntityId) (used : Nat) : chargeSeeds estimator nodes seeds selected used =
      .ok (seeds.foldl (fun selected id => selected.insert id) selected,
        used + (seeds.map (priceOf estimator nodes)).sum) := by
  induction seeds generalizing selected used with
  | nil => rfl
  | cons seed seeds ih =>
      obtain ⟨hseed, hseeds⟩ := List.forall_mem_cons.mp hseeds
      obtain ⟨node, hn, -⟩ := indexMap_eq hseed
      have hprice : priceOf estimator nodes seed = nodeTokens estimator node := by
        rw [priceOf, hn]
        rfl
      rw [chargeSeeds, hn]
      dsimp only
      rw [ih hseeds, List.foldl_cons, List.map_cons, List.sum_cons, hprice, Nat.add_assoc]

def seeded (estimator : TokenEstimator) (request : ContextRequest)
    (nodes : BTreeMap EntityId MemoryNode) : Selection where
  selected := (sortedSeeds request).foldl (fun selected id => selected.insert id) ∅
  used := seedCost estimator request nodes
  facts := []
  omitted := 0

theorem mem_seeded {id : EntityId} : id ∈ (seeded estimator request nodes).selected ↔ id ∈ request.seeds := by
  rw [seeded, mem_insertAll, mem_sortedSeeds]
  exact or_iff_left (by simp)

theorem selectSeeds_eq (hseeds : ∀ seed ∈ request.seeds, nodes.contains seed = true) :
    selectSeeds estimator request nodes =
      if request.tokenBudget < seedCost estimator request nodes then
        .error (.budgetTooSmall (seedCost estimator request nodes) request.tokenBudget)
      else .ok ((seeded estimator request nodes).selected, seedCost estimator request nodes) := by
  have hcharge := @chargeSeeds_eq estimator nodes (sortedSeeds request)
    (fun seed hs => hseeds seed (mem_sortedSeeds.mp hs)) ∅ 0
  rw [selectSeeds, hcharge, ok_bind, Nat.zero_add]
  change (do
    throwIf (request.tokenBudget < seedCost estimator request nodes) _
    Except.ok _ : Result _) = _
  rw [throwIf]
  split <;> rfl

theorem worth_seeded : worth (pricesOf estimator nodes) (basketOf (seeded estimator request nodes)) =
    seedCost estimator request nodes := by
  have hset : (basketOf (seeded estimator request nodes)).resources = (sortedSeeds request).toFinset := by
    ext id
    rw [mem_resources, mem_seeded, List.mem_toFinset, mem_sortedSeeds]
  rw [worth, hset, List.sum_toFinset _ (sortedSeeds_ascending request).nodup]
  exact Nat.add_zero _

theorem rankCandidates_perm {distances : BTreeMap EntityId Nat} {found : List MemoryFact}
    (h : ∀ fact ∈ found, distances.contains fact.source = true ∧ distances.contains fact.target = true) :
    ∃ candidates, rankCandidates distances found = .ok candidates ∧ candidates.Perm found := by
  have hindex : ∀ id, distances.contains id = true → ∃ n, indexMap distances id = .ok n := by
    intro id hid
    obtain ⟨n, hn⟩ := contains_iff.mp hid
    exact ⟨n, by rw [indexMap, hn]⟩
  have hkeyed : ∃ keyed : List (Priority × MemoryFact), found.mapM (fun fact => do
      let key ← priority distances fact
      .ok (key, fact)) = .ok keyed ∧ keyed.map (·.2) = found := by
    induction found with
    | nil => exact ⟨[], rfl, rfl⟩
    | cons fact rest ih =>
        obtain ⟨⟨hsource, htarget⟩, hrest⟩ := List.forall_mem_cons.mp h
        obtain ⟨source, hs⟩ := hindex _ hsource
        obtain ⟨target, ht⟩ := hindex _ htarget
        obtain ⟨keyed, hkeyed, hfacts⟩ := ih hrest
        refine ⟨(⟨min source target, fact.confidence.basisPoints, fact.recordedAt, fact.id⟩, fact) :: keyed, ?_,
          congrArg (fact :: ·) hfacts⟩
        rw [List.mapM_cons, priority, hs, ok_bind, ht, ok_bind, ok_bind, ok_bind, hkeyed, ok_bind]
        rfl
  obtain ⟨keyed, hkeyed, hfacts⟩ := hkeyed
  refine ⟨_, by rw [rankCandidates, hkeyed, ok_bind], ?_⟩
  conv_rhs => rw [← hfacts]
  exact (List.mergeSort_perm _ _).map _

def heldNodes (nodes : BTreeMap EntityId MemoryNode) (s : Selection) : List MemoryNode :=
  s.selected.toList.filterMap fun id => nodes[id]?

def sortedFacts (s : Selection) : List MemoryFact :=
  s.facts.mergeSort fun left right => (compare left.id right.id).isLE

theorem mapM_indexMap {ids : List EntityId} (h : ∀ id ∈ ids, nodes.contains id = true) :
    ids.mapM (indexMap nodes) = .ok (ids.filterMap fun id => nodes[id]?) := by
  induction ids with
  | nil => rfl
  | cons id ids ih =>
      obtain ⟨hid, hids⟩ := List.forall_mem_cons.mp h
      obtain ⟨node, hn, hindex⟩ := indexMap_eq hid
      rw [List.mapM_cons, hindex, ok_bind, ih hids, ok_bind, List.filterMap_cons, hn]
      rfl

theorem heldNodes_eq (hkeys : ∀ (id : EntityId) node, nodes[id]? = some node → node.id = id)
    (hfound : ∀ id ∈ s.selected, nodes.contains id = true) :
    (heldNodes nodes s).map MemoryNode.id = s.selected.toList ∧
      (heldNodes nodes s).map (nodeTokens estimator) = s.selected.toList.map (priceOf estimator nodes) := by
  have hlist : ∀ ids : List EntityId, (∀ id ∈ ids, nodes.contains id = true) →
      (ids.filterMap fun id => nodes[id]?).map MemoryNode.id = ids ∧
        (ids.filterMap fun id => nodes[id]?).map (nodeTokens estimator) = ids.map (priceOf estimator nodes) := by
    intro ids
    induction ids with
    | nil => exact fun _ => ⟨rfl, rfl⟩
    | cons id ids ih =>
        intro h
        obtain ⟨hid, hids⟩ := List.forall_mem_cons.mp h
        obtain ⟨node, hn, -⟩ := indexMap_eq hid
        obtain ⟨hmap, hcost⟩ := ih hids
        simp only [List.filterMap_cons, hn, List.map_cons, hmap, hcost, hkeys id node hn]
        refine ⟨trivial, congrArg (· :: _) ?_⟩
        rw [priceOf, hn]
        rfl
  exact hlist _ fun id hid => hfound id (Std.ExtTreeSet.mem_toList.mp hid)

theorem ascending_toList (ids : BTreeSet EntityId) : Ascending ids.toList := Std.ExtTreeSet.ordered_toList

theorem worth_eq (hkeys : ∀ (id : EntityId) node, nodes[id]? = some node → node.id = id)
    (hfound : ∀ id ∈ s.selected, nodes.contains id = true) :
    worth (pricesOf estimator nodes) (basketOf s) =
      ((heldNodes nodes s).map (nodeTokens estimator)).sum + ((sortedFacts s).map (factTokens estimator)).sum := by
  have hsum := ((List.mergeSort_perm s.facts fun left right => (compare left.id right.id).isLE).map
    (factTokens estimator)).sum_eq
  rw [(heldNodes_eq hkeys hfound).2, sortedFacts, hsum, worth, basketOf,
    List.sum_toFinset _ (ascending_toList s.selected).nodup]
  rfl

end WeavatrixMemory.Context.Budget
