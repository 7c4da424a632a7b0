import WeavatrixMemory.Analytics.Maintenance

namespace WeavatrixMemory.Analytics.Findings

open Error Identity Domain Sorting Groups GraphProjection Relation Analytics.Model Analytics.Timeline Analytics.Cascade
open Analytics.Presented Analytics.Queried Analytics.Gaps Analytics.Maintenance Analytics.Consolidation
open Analytics.Savings
open Projection.State Projection.Memory Projection.Invariant Projection.Views

/-- As many other entities can be reached from the entity along active facts. -/
def Impact (facts : List MemoryFact) (id : EntityId) (n : Nat) : Prop :=
  ∃ reached : List EntityId, reached.Nodup ∧ (∀ w, w ∈ reached ↔ ReflTransGen (Adjacent facts) id w ∧ w ≠ id) ∧
    n = reached.length

def supports (facts : List MemoryFact) (id : EntityId) : Nat :=
  (facts.filter fun fact => isSupport fact && fact.target = id).length

def ageAt (request : ReasoningGapRequest) (fact : MemoryFact) : Int :=
  i64Saturating (request.clock.knownAt.micros.toInt - fact.recordedAt.micros.toInt)

inductive Lacks (shown : MemoryView) (known : List MemoryFact) (request : ReasoningGapRequest) : ReasoningGap → Prop
  | unjustified {node : MemoryNode} {n : Nat} (hnode : node ∈ shown.nodes)
      (hkind : eqIgnoreAsciiCase node.kind.str "decision" = true) (hnone : supports shown.facts node.id = 0)
      (himpact : Impact shown.facts node.id n) :
      Lacks shown known request
        ⟨node.id, none, .unjustifiedDecision, 10000, n, "decision has no incoming support evidence"⟩
  | singleSource {node : MemoryNode} {n : Nat} (hnode : node ∈ shown.nodes)
      (hkind : eqIgnoreAsciiCase node.kind.str "inference" = true)
      (hfew : supports shown.facts node.id < request.minimumSupports) (himpact : Impact shown.facts node.id n) :
      Lacks shown known request
        ⟨node.id, none, .singleSourceInference,
          supportSeverity (supports shown.facts node.id) request.minimumSupports, n,
          "inference has fewer independent supports than required"⟩
  | lowConfidence {fact : MemoryFact} {n : Nat} (hfact : fact ∈ shown.facts)
      (hlow : fact.confidence.basisPoints < request.lowConfidenceBps) (himpact : Impact shown.facts fact.target n) :
      Lacks shown known request
        ⟨fact.target, some fact.id, .lowConfidenceFoundation, 10000 - fact.confidence.basisPoints, n,
          "active fact confidence is below the requested floor"⟩
  | stale {fact : MemoryFact} {n : Nat} (hfact : fact ∈ shown.facts)
      (hold : request.staleAfterMicros.toInt ≤ ageAt request fact) (himpact : Impact shown.facts fact.target n) :
      Lacks shown known request
        ⟨fact.target, some fact.id, .staleEvidence, staleSeverity (ageAt request fact) request.staleAfterMicros.toInt,
          n, "active fact has not been refreshed within the requested interval"⟩
  | unstable {key : ChainKey} {listed : List MemoryFact} {n : Nat}
      (hlisted : Listing timeOrder (fun fact => fact ∈ known ∧ chainOf fact = key) listed)
      (hmany : request.unstableRevisionCount ≤ listed.length)
      (hlong : request.unstableRevisionCount ≤ superseding listed + 1) (himpact : Impact shown.facts key.source n) :
      Lacks shown known request
        ⟨key.source, listed.getLast?.map (·.id), .unstableKnowledge, revisionSeverity listed.length, n,
          "belief has a long explicit supersession history"⟩

instance transGapOrder : Std.TransCmp gapOrder :=
  inferInstanceAs (Std.TransCmp (compareLex (compareLex (compareLex (compareLex
    (fun left right => compareOn ReasoningGap.severityBps right left)
    (fun left right => compareOn ReasoningGap.downstreamEntities right left)) (compareOn ReasoningGap.entity))
    (compareOn fun gap => GapKind.rank gap.kind)) (compareOn ReasoningGap.fact)))

variable {crate : GraphCrate} {queries : GraphQueries crate} {traversal : Traversal crate} {graph : crate.Graph}
  {shown : MemoryView} {known : List MemoryFact} {request : ReasoningGapRequest} {found other : ReasoningGap}
  {p : MemoryProjection}

theorem Impact.unique {facts : List MemoryFact} {id : EntityId} {m n : Nat} (h : Impact facts id m)
    (h' : Impact facts id n) : m = n := by
  obtain ⟨reached, hnodup, hmem, rfl⟩ := h
  obtain ⟨reached', hnodup', hmem', rfl⟩ := h'
  exact ((List.perm_ext_iff_of_nodup hnodup hnodup').mpr fun w => by rw [hmem, hmem']).length_eq

theorem impact_iff (h : Tells queries traversal graph shown) {id : EntityId} {n : Nat} :
    Impact shown.facts id n ↔ downstream traversal graph id = n := by
  have himpact : Impact shown.facts id (downstream traversal graph id) := h.downstream id
  constructor
  · exact fun hn => himpact.unique hn
  · rintro rfl
    exact himpact

theorem Lacks.eq (h : Lacks shown known request found) (h' : Lacks shown known request other)
    (horder : gapOrder found other = .eq) : found = other := by
  obtain ⟨horder, hfact⟩ := Ordering.then_eq_eq.mp horder
  obtain ⟨horder, hkind⟩ := Ordering.then_eq_eq.mp horder
  obtain ⟨horder, hentity⟩ := Ordering.then_eq_eq.mp horder
  obtain ⟨hseverity, hdownstream⟩ := Ordering.then_eq_eq.mp horder
  have hrank : Function.Injective GapKind.rank := by
    intro a b hab
    cases a <;> cases b <;> first | rfl | cases hab
  have hkind := hrank (Nat.compare_eq_eq.mp hkind)
  have hexplanation : found.explanation = other.explanation := by
    cases h <;> cases h' <;> first | rfl | cases hkind
  have hfact := Std.LawfulEqOrd.eq_of_compare hfact
  have hentity := Std.LawfulEqOrd.eq_of_compare hentity
  have hdownstream := Std.LawfulEqOrd.eq_of_compare hdownstream
  have hseverity := Std.LawfulEqOrd.eq_of_compare hseverity
  cases found
  cases other
  simp only at hkind hfact hentity hdownstream hseverity hexplanation
  rw [hkind, hfact, hentity, hdownstream, hseverity, hexplanation]

theorem lacks_of_nodeGap (h : Tells queries traversal graph (view p request.clock)) {node : MemoryNode}
    (hnode : node ∈ (view p request.clock).nodes)
    (hgap : nodeGap traversal graph (supportCounts (view p request.clock).facts) request node = some found) :
    Lacks (view p request.clock) known request found := by
  rw [nodeGap, getD_supportCounts] at hgap
  have himpact : Impact (view p request.clock).facts node.id _ := (impact_iff h).mpr rfl
  split at hgap
  next hnone =>
    obtain rfl := Option.some.inj hgap
    exact .unjustified hnode hnone.1 hnone.2 himpact
  next =>
    obtain ⟨hfew, hgap⟩ := Option.ite_none_right_eq_some.mp hgap
    obtain rfl := Option.some.inj hgap
    exact .singleSource hnode hfew.1 hfew.2 himpact

theorem mem_factGaps {fact : MemoryFact} : found ∈ factGaps traversal graph request fact ↔
    fact.confidence.basisPoints < request.lowConfidenceBps ∧
        found = gap traversal graph fact.target (some fact.id) .lowConfidenceFoundation
          (10000 - fact.confidence.basisPoints) "active fact confidence is below the requested floor" ∨
      request.staleAfterMicros.toInt ≤ ageAt request fact ∧
        found = gap traversal graph fact.target (some fact.id) .staleEvidence
          (staleSeverity (ageAt request fact) request.staleAfterMicros.toInt)
          "active fact has not been refreshed within the requested interval" := by
  have hite (c : Prop) [Decidable c] (g : ReasoningGap) : found ∈ (if c then [g] else []) ↔ c ∧ found = g := by
    split
    next hc => rw [List.mem_singleton, and_iff_right hc]
    next hc => exact iff_of_false List.not_mem_nil fun h => hc h.1
  rw [factGaps, List.mem_append, hite, hite]
  rfl

theorem mem_unstableGaps (hcount : 2 ≤ request.unstableRevisionCount) : found ∈ unstableGaps traversal graph p request ↔
    ∃ key, request.unstableRevisionCount ≤ (chain p request.clock.knownAt key).length ∧
      request.unstableRevisionCount ≤ superseding (chain p request.clock.knownAt key) + 1 ∧
      found = gap traversal graph key.source ((timeline (chain p request.clock.knownAt key)).getLast?.map (·.id))
        .unstableKnowledge (revisionSeverity (timeline (chain p request.clock.knownAt key)).length)
        "belief has a long explicit supersession history" := by
  simp only [unstableGaps, List.mem_filterMap, Prod.exists, mem_groups, Option.ite_none_left_eq_some, not_lt,
    Option.some.injEq, superseding_timeline]
  constructor
  · rintro ⟨key, group, ⟨-, rfl⟩, hmany, hlong, rfl⟩
    exact ⟨key, hmany, hlong, rfl⟩
  · rintro ⟨key, hmany, hlong, rfl⟩
    have hne : chain p request.clock.knownAt key ≠ [] := by
      rw [← List.length_pos_iff]
      omega
    exact ⟨key, _, ⟨hne, rfl⟩, hmany, hlong, rfl⟩

theorem mem_gapsOf (hp : Valid p) (h : Tells queries traversal graph (view p request.clock))
    (hcount : 2 ≤ request.unstableRevisionCount) : found ∈ gapsOf traversal p graph request ↔
      Lacks (view p request.clock) (knownFacts p request.clock.knownAt) request found := by
  have himpact (id : EntityId) : Impact (view p request.clock).facts id _ := (impact_iff h).mpr rfl
  rw [gapsOf, List.mem_append, List.mem_append, List.mem_flatMap, mem_unstableGaps hcount]
  constructor
  · rintro ((hnode | ⟨fact, hfact, hgap⟩) | ⟨key, hmany, hlong, rfl⟩)
    · obtain ⟨node, hnode, hgap⟩ := List.mem_filterMap.mp hnode
      exact lacks_of_nodeGap h hnode hgap
    · obtain ⟨hlow, rfl⟩ | ⟨hold, rfl⟩ := mem_factGaps.mp hgap
      · exact .lowConfidence hfact hlow (himpact fact.target)
      · exact .stale hfact hold (himpact fact.target)
    · refine .unstable (listing_chain hp request.clock.knownAt key) ?_ ?_ (himpact key.source)
      · rwa [timeline, List.length_mergeSort]
      · rwa [superseding_timeline]
  · intro hlacks
    cases hlacks with
    | @unjustified node n hnode hkind hnone himpact =>
        obtain rfl := (impact_iff h).mp himpact
        refine .inl (.inl (List.mem_filterMap.mpr ⟨node, hnode, ?_⟩))
        rw [nodeGap, getD_supportCounts, if_pos ⟨hkind, hnone⟩]
        rfl
    | @singleSource node n hnode hkind hfew himpact =>
        obtain rfl := (impact_iff h).mp himpact
        refine .inl (.inl (List.mem_filterMap.mpr ⟨node, hnode, ?_⟩))
        have hdecision := not_decision hkind
        rw [nodeGap, getD_supportCounts, if_neg fun hnone => Bool.false_ne_true (hdecision.symm.trans hnone.1),
          if_pos ⟨hkind, hfew⟩]
        rfl
    | @lowConfidence fact n hfact hlow himpact =>
        obtain rfl := (impact_iff h).mp himpact
        exact .inl (.inr ⟨fact, hfact, mem_factGaps.mpr (.inl ⟨hlow, rfl⟩)⟩)
    | @stale fact n hfact hold himpact =>
        obtain rfl := (impact_iff h).mp himpact
        exact .inl (.inr ⟨fact, hfact, mem_factGaps.mpr (.inr ⟨hold, rfl⟩)⟩)
    | @unstable key listed n hlisted hmany hlong himpact =>
        obtain rfl := (impact_iff h).mp himpact
        obtain rfl := hlisted.unique (listing_chain hp request.clock.knownAt key) fun _ => Iff.rfl
        refine .inr ⟨key, ?_, ?_, rfl⟩
        · rwa [timeline, List.length_mergeSort] at hmany
        · rwa [superseding_timeline] at hlong

theorem entity_of_nodeGap {counts : Std.ExtTreeMap EntityId Nat} {node : MemoryNode}
    (h : nodeGap traversal graph counts request node = some found) :
    found.entity = node.id ∧ found.fact = none ∧ found.kind ≠ .unstableKnowledge := by
  rw [nodeGap] at h
  split at h
  next => exact Option.some.inj h ▸ ⟨rfl, rfl, GapKind.noConfusion⟩
  next =>
    obtain ⟨-, h⟩ := Option.ite_none_right_eq_some.mp h
    exact Option.some.inj h ▸ ⟨rfl, rfl, GapKind.noConfusion⟩

theorem nodup_nodeGaps {nodes : List MemoryNode} (h : (nodes.map MemoryNode.id).Nodup)
    (counts : Std.ExtTreeMap EntityId Nat) : (nodes.filterMap (nodeGap traversal graph counts request)).Nodup := by
  refine List.pairwise_filterMap.mpr ((List.pairwise_map.mp h).imp fun hne found hfound other hother heq => hne ?_)
  rw [← (entity_of_nodeGap hfound).1, heq, (entity_of_nodeGap hother).1]

theorem fact_of_factGaps {fact : MemoryFact} (h : found ∈ factGaps traversal graph request fact) :
    found.fact = some fact.id ∧ found.kind ≠ .unstableKnowledge := by
  obtain ⟨-, rfl⟩ | ⟨-, rfl⟩ := mem_factGaps.mp h
  · exact ⟨rfl, GapKind.noConfusion⟩
  · exact ⟨rfl, GapKind.noConfusion⟩

theorem nodup_factGaps {facts : List MemoryFact} (h : Distinct facts) :
    (facts.flatMap (factGaps traversal graph request)).Nodup := by
  refine List.nodup_flatMap.mpr ⟨fun fact _ => ?_, (List.pairwise_map.mp h).imp fun hne found hfound hother => hne ?_⟩
  · rw [factGaps]
    split <;> split <;> simp [gap]
  · exact Option.some.inj ((fact_of_factGaps hfound).1.symm.trans (fact_of_factGaps hother).1)

theorem nodup_unstableGaps (hp : Valid p) (hcount : 2 ≤ request.unstableRevisionCount) :
    (unstableGaps traversal graph p request).Nodup := by
  have hdistinct : Distinct (knownFacts p request.clock.knownAt) := distinct_filter hp _
  -- What is said of a group names one of its facts.
  have hnamed (group : ChainKey × List MemoryFact) (hmany : ¬ group.2.length < request.unstableRevisionCount) :
      ∃ last ∈ group.2, (timeline group.2).getLast?.map (·.id) = some last.id := by
    obtain ⟨last, hlast⟩ := exists_last (List.length_pos_iff.mp (show 0 < group.2.length by omega))
    exact ⟨last, mem_timeline.mp (List.mem_of_getLast? hlast), congrArg (Option.map MemoryFact.id) hlast⟩
  rw [unstableGaps, List.Nodup, List.pairwise_filterMap]
  refine pairwise_groups.imp_of_mem fun {group other} hgroup ho hne found hfound found' hfound' heq => ?_
  obtain ⟨hmany, hfound⟩ := Option.ite_none_left_eq_some.mp hfound
  obtain ⟨hmany', hfound'⟩ := Option.ite_none_left_eq_some.mp hfound'
  obtain ⟨-, hfound⟩ := Option.ite_none_left_eq_some.mp hfound
  obtain ⟨-, hfound'⟩ := Option.ite_none_left_eq_some.mp hfound'
  obtain ⟨last, hmem, hlast⟩ := hnamed group hmany
  obtain ⟨last', hmem', hlast'⟩ := hnamed other hmany'
  have hfact : found.fact = some last.id := by
    rw [← Option.some.inj hfound, ← hlast]
    rfl
  have hfact' : found'.fact = some last'.id := by
    rw [← Option.some.inj hfound', ← hlast']
    rfl
  rw [(mem_groups.mp hgroup).2] at hmem
  rw [(mem_groups.mp ho).2] at hmem'
  obtain ⟨hmem, hkey⟩ := List.mem_filter.mp hmem
  obtain ⟨hmem', hkey'⟩ := List.mem_filter.mp hmem'
  rw [heq, hfact'] at hfact
  obtain rfl := hdistinct.eq hmem' hmem (Option.some.inj hfact)
  exact hne ((of_decide_eq_true hkey).symm.trans (of_decide_eq_true hkey'))

theorem nodup_gapsOf (hp : Valid p) (hcount : 2 ≤ request.unstableRevisionCount) :
    (gapsOf traversal p graph request).Nodup := by
  refine List.nodup_append'.mpr ⟨List.nodup_append'.mpr ⟨nodup_nodeGaps (view_ids_nodup hp).1 _,
    nodup_factGaps (distinct_view hp), ?_⟩, nodup_unstableGaps hp hcount, ?_⟩
  · intro found hnode hfact
    obtain ⟨node, -, hnode⟩ := List.mem_filterMap.mp hnode
    obtain ⟨fact, -, hfact⟩ := List.mem_flatMap.mp hfact
    have hnone := (entity_of_nodeGap hnode).2.1
    rw [(fact_of_factGaps hfact).1] at hnone
    cases hnone
  · intro found hearlier hunstable
    obtain ⟨key, -, -, rfl⟩ := (mem_unstableGaps hcount).mp hunstable
    obtain hnode | hfact := List.mem_append.mp hearlier
    · obtain ⟨node, -, hnode⟩ := List.mem_filterMap.mp hnode
      exact (entity_of_nodeGap hnode).2.2 rfl
    · obtain ⟨fact, -, hfact⟩ := List.mem_flatMap.mp hfact
      exact (fact_of_factGaps hfact).2 rfl

theorem listing_gapsOf (hp : Valid p) (h : Tells queries traversal graph (view p request.clock))
    (hcount : 2 ≤ request.unstableRevisionCount) :
    Listing gapOrder (Lacks (view p request.clock) (knownFacts p request.clock.knownAt) request)
      ((gapsOf traversal p graph request).mergeSort fun left right => (gapOrder left right).isLE) := by
  have hmem := fun found => @mem_gapsOf _ queries traversal graph request found p hp h hcount
  refine (listing_sort (nodup_gapsOf hp hcount) fun found hfound other hother heq => ?_).congr hmem
  exact ((hmem found).mp hfound).eq ((hmem other).mp hother) heq

theorem u16Or_le {otherwise : UInt16} {n bound : Nat} (hotherwise : otherwise.toNat ≤ bound) (h : n ≤ bound) :
    (u16Or otherwise n).toNat ≤ bound := by
  rw [u16Or]
  split
  next hlt => rwa [UInt16.toNat_ofNat_of_lt' hlt]
  next => exact hotherwise

theorem Lacks.severity_le (h : Lacks shown known request found) (hlow : ¬ 10000 < request.lowConfidenceBps) :
    found.severityBps.toNat ≤ 10000 := by
  cases h with
  | unjustified => exact le_rfl
  | singleSource => exact u16Or_le le_rfl (min_le_right _ _)
  | @lowConfidence fact n _ hfew =>
      have hle : fact.confidence.basisPoints ≤ 10000 := by
        rw [UInt16.lt_iff_toNat_lt] at hfew hlow
        rw [UInt16.le_iff_toNat_le]
        omega
      rw [UInt16.toNat_sub_of_le _ _ hle]
      exact Nat.sub_le _ _
  | stale =>
      rw [staleSeverity]
      split
      next => exact le_rfl
      next => exact u16Or_le le_rfl (by omega)
  | unstable => exact u16Or_le le_rfl (min_le_right _ _)

/-- A report has the first of what is lacking, each of it once, in order. -/
theorem gaps_exact (hp : Valid p) (h : Answers adjacency ends queries traversal)
    (hgraph : projectGraph crate (view p request.clock) = .ok graph) (hvalid : validateRequest request = .ok ()) :
    ∃ lacking, Listing gapOrder (Lacks (view p request.clock) (knownFacts p request.clock.knownAt) request) lacking ∧
      (∀ found ∈ lacking, found.severityBps.toNat ≤ 10000) ∧
      reasoningGaps traversal p request = .ok
        { gaps := lacking.take request.maxResults
          healthBps := health lacking.length (view p request.clock).nodes.length
          analyzedEntities := (view p request.clock).nodes.length
          analyzedFacts := (view p request.clock).facts.length } := by
  have hasked := hvalid
  rw [validateRequest, throwIf_eq_ok, not_or, not_or, not_or, Nat.not_lt] at hasked
  obtain ⟨-, hlow, hcount, -⟩ := hasked
  have hlisting := listing_gapsOf hp (tells_of_view h hp hgraph) hcount
  refine ⟨_, hlisting, fun found hfound => ((hlisting.mem found).mp hfound).severity_le hlow, ?_⟩
  rw [reasoningGaps, hvalid, ok_bind, hgraph, ok_bind]

theorem gaps_exact_concluded : ∃ p graph lacking, Concluded p graph ∧
    Listing gapOrder (Lacks (view p (gapRequest 3).clock) (knownFacts p (gapRequest 3).clock.knownAt) (gapRequest 3))
      lacking ∧ (∀ found ∈ lacking, found.severityBps.toNat ≤ 10000) ∧
    reasoningGaps listTraversal p (gapRequest 3) = .ok
      { gaps := lacking.take 100
        healthBps := health lacking.length (view p (gapRequest 3).clock).nodes.length
        analyzedEntities := (view p (gapRequest 3).clock).nodes.length
        analyzedFacts := (view p (gapRequest 3).clock).facts.length } := by
  obtain ⟨p, graph, hconcluded⟩ := exists_concluded
  have hp : Valid p := valid_of_replay hconcluded.replayed
  obtain ⟨lacking, hlacking, hsevere, hreport⟩ := @gaps_exact _ _ listTraversal graph (gapRequest 3) p _ _ hp
    answers_list hconcluded.projected (by decide +kernel)
  exact ⟨p, graph, lacking, hconcluded, hlacking, hsevere, hreport⟩

end WeavatrixMemory.Analytics.Findings
