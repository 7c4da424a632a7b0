import WeavatrixMemory.Analytics.Queried
import WeavatrixMemory.Analytics.Savings

namespace WeavatrixMemory.Analytics.Maintenance

open Error Identity Domain Sorting Groups GraphProjection Analytics.Model Analytics.Timeline Analytics.Consolidation
open Analytics.Cascade Analytics.Presented Analytics.Queried Analytics.Savings Analytics.Gaps
open Projection.State Projection.Memory Projection.Invariant Projection.Views

def orphanOf (id : EntityId) : ConsolidationAction where
  kind := .reviewOrphan
  keep := none
  affectedFacts := []
  affectedEntities := [id]
  rationale := "entity has no active incoming or outgoing evidence"

/-- What is to be done about a view and the facts that are known: active facts that say the same, from the strongest
one on, entities that no active fact is about, and long chains of revisions, from the first one on. -/
inductive Due (shown : MemoryView) (known : List MemoryFact) : ConsolidationAction → Prop
  | duplicate {key : LinkKey} {listed : List MemoryFact}
      (hlisted : Listing strengthOrder (fun fact => fact ∈ shown.facts ∧ linkOf fact = key) listed)
      (htwo : 2 ≤ listed.length) :
      Due shown known ⟨.supersedeDuplicate, listed.head?.map (·.id), listed.map (·.id), [key.source, key.target],
        "same active source, relation, and target; keep strongest evidence"⟩
  | orphan {node : MemoryNode} (hnode : node ∈ shown.nodes) (halone : Alone shown.facts node.id) :
      Due shown known (orphanOf node.id)
  | chain {key : ChainKey} {listed : List MemoryFact}
      (hlisted : Listing timeOrder (fun fact => fact ∈ known ∧ chainOf fact = key) listed)
      (hlong : 3 ≤ superseding listed) :
      Due shown known ⟨.compactRevisionChain, listed.getLast?.map (·.id), listed.map (·.id), [key.source],
        "retain event history but checkpoint a long revision chain"⟩

instance transStrengthOrder : Std.TransCmp strengthOrder :=
  inferInstanceAs (Std.TransCmp (compareLex (compareLex
    (fun left right => compareOn (fun fact : MemoryFact => fact.confidence.basisPoints) right left)
    (fun left right => compareOn MemoryFact.recordedAt right left)) (compareOn MemoryFact.id)))

variable {crate : GraphCrate} {adjacency : Adjacency crate} {ends : Ends crate} {queries : GraphQueries crate}
  {traversal : Traversal crate} {p : MemoryProjection} {clock : ProjectionClock} {graph : crate.Graph}
  {shown : MemoryView} {facts : List MemoryFact} {action : ConsolidationAction}

theorem id_of_strengthOrder {fact other : MemoryFact} (h : strengthOrder fact other = .eq) : fact.id = other.id :=
  Std.LawfulEqOrd.eq_of_compare (Ordering.then_eq_eq.mp h).2

theorem listing_strength (h : Distinct facts) :
    Listing strengthOrder (· ∈ facts) (facts.mergeSort fun left right => (strengthOrder left right).isLE) :=
  listing_sort h.of_map fun _ hf _ ho heq => h.eq hf ho (id_of_strengthOrder heq)

theorem listing_timeline (h : Distinct facts) : Listing timeOrder (· ∈ facts) (timeline facts) :=
  listing_sort h.of_map fun _ hf _ ho heq => h.eq hf ho (id_of_timeOrder heq)

theorem orphanActions_perm (h : Tells queries traversal graph shown) : (orphanActions queries graph).Perm
    ((shown.nodes.filter fun node => Alone shown.facts node.id).map fun node => orphanOf node.id) := by
  have horphan (id : EntityId) : orphanAction id.text = orphanOf id := by
    rw [orphanAction, TextId.new_text]
    rfl
  refine (h.nodeIds.filterMap _).trans (List.Perm.of_eq ?_)
  rw [List.filterMap_map, ← List.filterMap_eq_map, List.filterMap_filter]
  refine List.filterMap_congr fun node hnode => ?_
  obtain ⟨i, hi, hisolated⟩ := h.isolated node hnode
  simp only [Function.comp_apply, hi, Option.bind_some, hisolated, horphan, decide_eq_true_iff]

theorem listing_duplicates (hp : Valid p) (clock : ProjectionClock) (key : LinkKey) :
    Listing strengthOrder (fun fact => fact ∈ (view p clock).facts ∧ linkOf fact = key)
      ((duplicates p clock key).mergeSort fun left right => (strengthOrder left right).isLE) :=
  (listing_strength ((distinct_view hp).sublist (List.filter_sublist.map _))).congr fun _ => mem_duplicates

theorem listing_chain (hp : Valid p) (knownAt : Timestamp) (key : ChainKey) :
    Listing timeOrder (fun fact => fact ∈ knownFacts p knownAt ∧ chainOf fact = key)
      (timeline (chain p knownAt key)) := by
  refine (listing_timeline (distinct_chain hp knownAt key)).congr fun fact => ?_
  rw [chain, List.mem_filter, decide_eq_true_iff]

theorem mem_actionsOf (hp : Valid p) (h : Tells queries traversal graph (view p clock)) :
    action ∈ actionsOf queries p clock graph ↔ Due (view p clock) (knownFacts p clock.knownAt) action := by
  rw [actionsOf, List.mem_append, List.mem_append, mem_duplicateActions, (orphanActions_perm h).mem_iff,
    mem_revisionActions]
  constructor
  · rintro ((⟨key, htwo, rfl⟩ | horphan) | ⟨key, hlong, rfl⟩)
    · exact .duplicate (listing_duplicates hp clock key) (by rwa [List.length_mergeSort])
    · obtain ⟨node, hnode, rfl⟩ := List.mem_map.mp horphan
      obtain ⟨hnode, halone⟩ := List.mem_filter.mp hnode
      exact .orphan hnode (of_decide_eq_true halone)
    · exact .chain (listing_chain hp clock.knownAt key) (by rwa [superseding_timeline])
  · intro hdue
    cases hdue with
    | @duplicate key listed hlisted htwo =>
        obtain rfl := hlisted.unique (listing_duplicates hp clock key) fun _ => Iff.rfl
        exact .inl (.inl ⟨key, by rwa [List.length_mergeSort] at htwo, rfl⟩)
    | @orphan node hnode halone =>
        exact .inl (.inr (List.mem_map.mpr ⟨node, List.mem_filter.mpr ⟨hnode, decide_eq_true halone⟩, rfl⟩))
    | @chain key listed hlisted hlong =>
        obtain rfl := hlisted.unique (listing_chain hp clock.knownAt key) fun _ => Iff.rfl
        exact .inr ⟨key, by rwa [superseding_timeline] at hlong, rfl⟩

def keepOf (facts : List FactId) : ConsolidationKind → Option FactId
  | .supersedeDuplicate => facts.head?
  | .reviewOrphan => none
  | .compactRevisionChain => facts.getLast?

theorem Due.keep {known : List MemoryFact} (h : Due shown known action) :
    action.keep = keepOf action.affectedFacts action.kind := by
  cases h with
  | duplicate => exact List.head?_map.symm
  | orphan => rfl
  | chain => exact List.getLast?_map.symm

theorem Due.eq {known : List MemoryFact} {other : ConsolidationAction} (h : Due shown known action)
    (h' : Due shown known other) (horder : actionOrder action other = .eq) : action = other := by
  obtain ⟨hkind, hfacts⟩ := eq_of_actionOrder horder
  have hentities : action.affectedEntities = other.affectedEntities :=
    Std.LawfulEqOrd.eq_of_compare (Ordering.then_eq_eq.mp (Ordering.then_eq_eq.mp horder).1).2
  have hkeep := h.keep
  rw [hkind, hfacts, ← h'.keep] at hkeep
  have hrationale : action.rationale = other.rationale := by
    cases h <;> cases h' <;> first | rfl | cases hkind
  cases action
  cases other
  simp only at hkind hfacts hentities hkeep hrationale
  rw [hkind, hfacts, hentities, hkeep, hrationale]

theorem kind_of_duplicate (h : action ∈ duplicateActions (view p clock).facts) : action.kind = .supersedeDuplicate := by
  obtain ⟨key, -, rfl⟩ := mem_duplicateActions.mp h
  rfl

theorem kind_of_orphan (h : action ∈ orphanActions queries graph) : action.kind = .reviewOrphan := by
  obtain ⟨id, rfl⟩ := orphan_of_mem h
  rfl

theorem kind_of_chain (h : action ∈ revisionActions p clock) : action.kind = .compactRevisionChain := by
  obtain ⟨key, -, rfl⟩ := mem_revisionActions.mp h
  rfl

theorem nodup_actionsOf (hp : Valid p) (h : Tells queries traversal graph (view p clock)) :
    (actionsOf queries p clock graph).Nodup := by
  have hapart := @pairwise_apart _ queries _ clock graph hp
  -- Actions of one kind are about different facts, unless they are about none.
  have hne (actions : List ConsolidationAction) (hsub : actions.Sublist (actionsOf queries p clock graph))
      (hfacts : ∀ action ∈ actions, ∃ id, id ∈ action.affectedFacts) : actions.Nodup := by
    refine (hapart.sublist hsub).imp_of_mem fun {a b} ha _ hab heq => ?_
    subst heq
    obtain ⟨id, hid⟩ := hfacts a ha
    exact hab rfl hid hid
  have horphans : (orphanActions queries graph).Nodup := by
    rw [(orphanActions_perm h).nodup_iff]
    have hnodes := (@view_ids_nodup _ clock hp).1.sublist
      ((List.filter_sublist (p := fun node => decide (Alone (view p clock).facts node.id))).map MemoryNode.id)
    refine List.Nodup.map_on (fun node hnode other hother heq => ?_) hnodes.of_map
    exact List.inj_on_of_nodup_map hnodes hnode hother (List.singleton_injective (congrArg (·.affectedEntities) heq))
  rw [actionsOf] at hne ⊢
  refine List.nodup_append'.mpr ⟨List.nodup_append'.mpr ⟨hne _ ?_ fun action haction => ?_, horphans, ?_⟩,
    hne _ (List.sublist_append_right _ _) fun action haction => ?_, ?_⟩
  · exact (List.sublist_append_left _ _).trans (List.sublist_append_left _ _)
  · obtain ⟨key, htwo, rfl⟩ := mem_duplicateActions.mp haction
    obtain ⟨fact, hfact⟩ := List.exists_mem_of_length_pos (lt_of_lt_of_le Nat.zero_lt_two htwo)
    exact ⟨fact.id, mem_duplicateAction.mpr ⟨fact, hfact, rfl⟩⟩
  · intro action hduplicate horphan
    have hkind := kind_of_orphan horphan
    rw [kind_of_duplicate hduplicate] at hkind
    cases hkind
  · obtain ⟨key, hlong, rfl⟩ := mem_revisionActions.mp haction
    obtain ⟨fact, hfact⟩ := List.exists_mem_of_ne_nil _ hlong.chain_ne_nil
    exact ⟨fact.id, mem_revisionAction.mpr ⟨fact, hfact, rfl⟩⟩
  · intro action hearlier hchain
    have hkind := kind_of_chain hchain
    obtain hduplicate | horphan := List.mem_append.mp hearlier
    · rw [kind_of_duplicate hduplicate] at hkind
      cases hkind
    · rw [kind_of_orphan horphan] at hkind
      cases hkind

theorem tells_of_view (h : Answers adjacency ends queries traversal) (hp : Valid p)
    (hgraph : projectGraph crate (view p clock) = .ok graph) : Tells queries traversal graph (view p clock) :=
  tells_of_projectGraph h (view_ids_nodup hp).1 (fun _ hf => endpoints_in_view hp hf) hgraph

theorem listing_actionsOf (hp : Valid p) (h : Tells queries traversal graph (view p clock)) :
    Listing actionOrder (Due (view p clock) (knownFacts p clock.knownAt))
      ((actionsOf queries p clock graph).mergeSort fun left right => (actionOrder left right).isLE) := by
  have hmem := fun action => @mem_actionsOf _ queries traversal p clock graph action hp h
  refine (listing_sort (nodup_actionsOf hp h) fun a ha b hb heq => ?_).congr hmem
  exact ((hmem a).mp ha).eq ((hmem b).mp hb) heq

/-- A plan is made of the first of the actions that are due, each of them once, in order. -/
theorem consolidation_exact (hp : Valid p) (h : Answers adjacency ends queries traversal)
    (hgraph : projectGraph crate (view p clock) = .ok graph) (maxActions : Nat) (hmax : maxActions ≠ 0) :
    ∃ due, Listing actionOrder (Due (view p clock) (knownFacts p clock.knownAt)) due ∧
      consolidationPlan queries p clock maxActions =
        .ok ⟨due.take maxActions, ((due.take maxActions).map savings).sum, p.lastGlobalPosition⟩ := by
  refine ⟨_, listing_actionsOf hp (tells_of_view h hp hgraph), ?_⟩
  rw [consolidationPlan, throwIf_of_not hmax, ok_bind, hgraph, ok_bind]

theorem consolidation_exact_in_turn : ∃ p graph due, Example inTurn p graph ∧
    Listing actionOrder (Due (view p ⟨Common.ts 60, Common.ts 60⟩) (knownFacts p (Common.ts 60))) due ∧
    consolidationPlan listQueries p ⟨Common.ts 60, Common.ts 60⟩ 1 =
      .ok ⟨due.take 1, ((due.take 1).map savings).sum, p.lastGlobalPosition⟩ := by
  obtain ⟨p, graph, hexample⟩ := exists_inTurn
  obtain ⟨due, hdue, hplan⟩ := consolidation_exact hexample.valid answers_list hexample.projected 1 Nat.one_ne_zero
  exact ⟨p, graph, due, hexample, hdue, hplan⟩

end WeavatrixMemory.Analytics.Maintenance
