import Mathlib.Data.List.GetD
import Mathlib.Data.List.Nodup
import WeavatrixMemory.Projection.Admission

namespace WeavatrixMemory.Projection.Invariant

open Error Identity Domain Index State Memory Admission

def Touches (id : EntityId) (fact : MemoryFact) : Prop := fact.source = id ∨ fact.target = id

instance (id : EntityId) (fact : MemoryFact) : Decidable (Touches id fact) :=
  inferInstanceAs (Decidable (_ ∨ _))

def incidentIndexes (facts : List MemoryFact) (id : EntityId) : List Nat :=
  (facts.zipIdx.filter (fun e => Touches id e.1)).map (·.2)

/-- The serialized fields of a projection in order: identifiers are unique, everything recorded
is valid, and every reference is to something recorded. -/
structure Sound (data : ProjectionData) : Prop where
  nodeIds : (data.nodes.map NodeHistory.id).Nodup
  revisions : ∀ history ∈ data.nodes, checkRevisions history.id history.revisions = .ok ()
  factIds : (data.facts.map MemoryFact.id).Nodup
  valid : ∀ fact ∈ data.facts, fact.validate = .ok ()
  endpoints : ∀ fact ∈ data.facts,
    fact.source ∈ data.nodes.map NodeHistory.id ∧ fact.target ∈ data.nodes.map NodeHistory.id
  supersessions : ∀ prior change, data.supersessions[prior]? = some change →
    prior ∈ data.facts.map MemoryFact.id ∧ ∃ fact ∈ data.facts, fact.id = change.replacement ∧
      fact.supersedes = some prior ∧ fact.validFrom = change.validFrom ∧
      fact.recordedAt = change.recordedAt
  retractions : ∀ id change, data.retractions[id]? = some change →
    ∃ fact ∈ data.facts, fact.id = id ∧ fact.validFrom < change.validUntil

def stableRow (p : MemoryProjection) (i : Nat) : List Nat :=
  (p.incidentFacts.drop (p.incidentOffsets.getD i 0)).take
    (p.incidentOffsets.getD (i + 1) 0 - p.incidentOffsets.getD i 0)

/-- The derived fields of a projection agree with its nodes and facts. -/
structure Indexed (p : MemoryProjection) : Prop where
  nodeLookup : IndexOf p.nodeLookup (p.nodes.map NodeHistory.id)
  factLookup : IndexOf p.factLookup (p.facts.map MemoryFact.id)
  offsets_length : p.incidentOffsets.length = p.nodes.length + 1
  offsets_sorted : p.incidentOffsets.Pairwise (· ≤ ·)
  offsets_last : p.incidentOffsets.getLast? = some p.incidentFacts.length
  delta_none : ∀ i, p.nodes.length ≤ i → p.incidentDelta i = none
  row : ∀ i history, p.nodes[i]? = some history →
    stableRow p i ++ (p.incidentDelta i).getD [] = incidentIndexes p.facts history.id

structure Valid (p : MemoryProjection) : Prop where
  sound : Sound p.data
  indexed : Indexed p

variable {p : MemoryProjection}

theorem valid_default (seeds : Seeds) : Valid (MemoryProjection.default seeds) where
  sound :=
    { nodeIds := List.nodup_nil
      revisions := fun _ h => absurd h List.not_mem_nil
      factIds := List.nodup_nil
      valid := fun _ h => absurd h List.not_mem_nil
      endpoints := fun _ h => absurd h List.not_mem_nil
      supersessions := fun prior change h => by
        simp [MemoryProjection.data, MemoryProjection.default, MemoryProjection.withCapacity] at h
      retractions := fun id change h => by
        simp [MemoryProjection.data, MemoryProjection.default, MemoryProjection.withCapacity] at h }
  indexed :=
    { nodeLookup := indexOf_withSeed _
      factLookup := indexOf_withSeed _
      offsets_length := rfl
      offsets_sorted := List.pairwise_singleton _ _
      offsets_last := rfl
      delta_none := fun _ _ => rfl
      row := fun i history h => by
        simp [MemoryProjection.default, MemoryProjection.withCapacity] at h }

theorem checkRevisions_eq_ok {id : EntityId} {revisions : List NodeRevision} :
    checkRevisions id revisions = .ok () ↔
      ∀ revision ∈ revisions, revision.node.validate = .ok () ∧ revision.node.id = id := by
  induction revisions with
  | nil => simp [checkRevisions]
  | cons revision rest ih =>
      simp only [checkRevisions, unit_bind_eq_ok, throwIf_eq_ok, ih, ne_eq, not_not, List.forall_mem_cons,
        and_assoc]

theorem incidentIndexes_append (facts : List MemoryFact) (fact : MemoryFact) (id : EntityId) :
    incidentIndexes (facts ++ [fact]) id =
      incidentIndexes facts id ++ (if Touches id fact then [facts.length] else []) := by
  unfold incidentIndexes
  rw [List.zipIdx_append, List.filter_append, List.map_append]
  by_cases h : Touches id fact <;> simp [h]

theorem incidentIndexes_of_not_touched {facts : List MemoryFact} {id : EntityId}
    (h : ∀ fact ∈ facts, ¬ Touches id fact) : incidentIndexes facts id = [] := by
  unfold incidentIndexes
  rw [List.map_eq_nil_iff, List.filter_eq_nil_iff]
  intro e he
  simpa using h e.1 (List.fst_mem_of_mem_zipIdx he)

theorem pushDelta_getD (delta : Nat → Option (List Nat)) (node index i : Nat) :
    (pushDelta delta node index i).getD [] =
      (delta i).getD [] ++ (if i = node then [index] else []) := by
  unfold pushDelta
  by_cases h : i = node
  · subst i; simp
  · simp [h]

theorem pushDelta_ne (delta : Nat → Option (List Nat)) {node i : Nat} (index : Nat) (h : i ≠ node) :
    pushDelta delta node index i = delta i := Function.update_of_ne h _ _

theorem split_set {α : Type} {xs : List α} {i : Nat} {x : α} (h : xs[i]? = some x) (y : α) :
    xs = xs.take i ++ x :: xs.drop (i + 1) ∧ xs.set i y = xs.take i ++ y :: xs.drop (i + 1) := by
  obtain ⟨hlt, rfl⟩ := List.getElem?_eq_some_iff.mp h
  refine ⟨?_, List.set_eq_take_append_cons_drop.trans (if_pos hlt)⟩
  rw [← List.drop_eq_getElem_cons hlt, List.take_append_drop]

theorem nodeIds_revise {nodes : List NodeHistory} {index : Nat} {history : NodeHistory}
    (hs : nodes[index]? = some history) (revision : NodeRevision) :
    (nodes.set index { history with later := history.later ++ [revision] }).map NodeHistory.id =
      nodes.map NodeHistory.id := by
  obtain ⟨hlt, he⟩ := List.getElem?_eq_some_iff.mp hs
  have hlt : index < (nodes.map NodeHistory.id).length := by rwa [List.length_map]
  have hid : (nodes.map NodeHistory.id)[index] = history.id := by rw [List.getElem_map, he]
  rw [List.map_set]
  exact (congrArg _ hid.symm).trans (List.set_getElem_self _)

namespace Indexed

theorem node_index (h : Indexed p) {id : EntityId} {i : Nat} :
    p.nodeLookup.get id = some i ↔ ∃ history, p.nodes[i]? = some history ∧ history.id = id := by
  rw [h.nodeLookup id i, List.getElem?_map, Option.map_eq_some_iff]

theorem fact_index (h : Indexed p) {id : FactId} {i : Nat} :
    p.factLookup.get id = some i ↔ ∃ fact, p.facts[i]? = some fact ∧ fact.id = id := by
  rw [h.factLookup id i, List.getElem?_map, Option.map_eq_some_iff]

theorem node_lt (h : Indexed p) {id : EntityId} {i : Nat} (hi : p.nodeLookup.get id = some i) :
    i < p.nodes.length := by
  obtain ⟨_, hs, _⟩ := h.node_index.mp hi
  exact (List.getElem?_eq_some_iff.mp hs).1

theorem fact_unique (h : Indexed p) {f g : MemoryFact} (hf : f ∈ p.facts) (hg : g ∈ p.facts)
    (hid : f.id = g.id) : f = g :=
  List.inj_on_of_nodup_map h.factLookup.nodup hf hg hid

theorem offset_le_last (h : Indexed p) {lo : Nat} (hl : lo ∈ p.incidentOffsets) :
    lo ≤ p.incidentFacts.length := by
  obtain ⟨init, hi⟩ := List.getLast?_eq_some_iff.mp h.offsets_last
  have hs := h.offsets_sorted
  rw [hi, List.mem_append] at hl
  rw [hi, List.pairwise_append] at hs
  rcases hl with hl | hl
  · exact hs.2.2 lo hl _ List.mem_cons_self
  · rw [List.mem_singleton.mp hl]

theorem revise (h : Indexed p) {index : Nat} {history : NodeHistory} {revision : NodeRevision}
    (hs : p.nodes[index]? = some history) : Indexed (Change.commit p (.revise index history revision)) := by
  have hids := nodeIds_revise hs revision
  refine ⟨?_, h.factLookup, ?_, h.offsets_sorted, h.offsets_last, ?_, ?_⟩
  · exact hids.symm ▸ h.nodeLookup
  · exact h.offsets_length.trans (by simp [Change.commit])
  · intro i hi
    exact h.delta_none i (by simpa [Change.commit] using hi)
  · intro i revised hi
    have hid : (p.nodes.map NodeHistory.id)[i]? = some revised.id := by
      rw [← hids, List.getElem?_map]
      exact congrArg (Option.map NodeHistory.id) hi
    rw [List.getElem?_map, Option.map_eq_some_iff] at hid
    obtain ⟨former, hf, hid⟩ := hid
    rw [← hid]
    exact h.row i former hf

theorem add (hp : Valid p) {revision : NodeRevision} (hu : p.nodeLookup.get revision.node.id = none) :
    Indexed (Change.commit p (.add revision)) := by
  have h := hp.indexed
  have hlast : p.incidentOffsets.getLastD 0 = p.incidentFacts.length := by
    rw [List.getLastD_eq_getLast?, h.offsets_last]
    rfl
  have hlen := h.offsets_length
  refine ⟨?_, h.factLookup, ?_, ?_, ?_, ?_, ?_⟩
  · have := h.nodeLookup.insert hu
    rw [List.length_map] at this
    simp only [Change.commit, List.map_append, List.map_singleton]
    exact this
  · simp only [Change.commit, List.length_append, List.length_singleton, hlen]
  · refine List.pairwise_append.mpr ⟨h.offsets_sorted, List.pairwise_singleton _ _, ?_⟩
    intro lo hl last he
    rw [List.mem_singleton.mp he, hlast]
    exact h.offset_le_last hl
  · simp only [Change.commit, List.getLast?_append, List.getLast?_singleton, hlast]
    rfl
  · intro i hi
    simp only [Change.commit, List.length_append, List.length_singleton] at hi
    exact h.delta_none i (by omega)
  · intro i history hi
    simp only [Change.commit] at hi
    simp only [Change.commit, stableRow]
    by_cases hlt : i < p.nodes.length
    · rw [List.getElem?_append_left hlt] at hi
      rw [List.getD_append _ _ _ _ (by omega), List.getD_append _ _ _ _ (by omega)]
      exact h.row i history hi
    · have hle := (List.getElem?_eq_some_iff.mp hi).1
      rw [List.length_append, List.length_singleton] at hle
      obtain rfl : i = p.nodes.length := by omega
      rw [List.getElem?_concat_length, Option.some.injEq] at hi
      subst hi
      have hrow : incidentIndexes p.facts revision.node.id = [] := by
        apply incidentIndexes_of_not_touched
        rintro fact hf (ht | ht)
        · exact h.nodeLookup.get_eq_none.mp hu (ht ▸ (hp.sound.endpoints fact hf).1)
        · exact h.nodeLookup.get_eq_none.mp hu (ht ▸ (hp.sound.endpoints fact hf).2)
      have hlo : p.incidentOffsets.getD p.nodes.length 0 = p.incidentOffsets.getLastD 0 := by
        rw [List.getD_eq_getElem?_getD, List.getLastD_eq_getLast?, List.getLast?_eq_getElem?, hlen,
          Nat.add_sub_cancel]
      have hhi : (p.incidentOffsets ++ [p.incidentOffsets.getLastD 0]).getD (p.nodes.length + 1) 0 =
          p.incidentOffsets.getLastD 0 := by
        rw [List.getD_append_right _ _ _ _ (by omega), hlen, Nat.sub_self]
        rfl
      rw [hhi, List.getD_append _ _ _ _ (by omega), hlo, Nat.sub_self, List.take_zero,
        h.delta_none _ le_rfl]
      exact hrow.symm

theorem record (h : Indexed p) {fact : MemoryFact} {source target : Nat}
    (ha : FactAdmitted p fact source target) :
    Indexed (Change.commit p (.record fact source target)) := by
  refine ⟨h.nodeLookup, ?_, h.offsets_length, h.offsets_sorted, h.offsets_last, ?_, ?_⟩
  · have := h.factLookup.insert ha.fresh
    rw [List.length_map] at this
    simpa only [Change.commit, List.map_append, List.map_singleton] using this
  · intro i hi
    have hs := h.node_lt ha.source
    have ht := h.node_lt ha.target
    simp only [Change.commit] at hi ⊢
    split
    · rw [pushDelta_ne _ _ (by omega), pushDelta_ne _ _ (by omega), h.delta_none i hi]
    · rw [pushDelta_ne _ _ (by omega), h.delta_none i hi]
  · intro i history hi
    change p.nodes[i]? = some history at hi
    have hat (id : EntityId) (j : Nat) (hj : p.nodeLookup.get id = some j) : i = j ↔ id = history.id := by
      constructor
      · rintro rfl
        obtain ⟨other, ho, hid⟩ := h.node_index.mp hj
        rw [ho, Option.some.injEq] at hi
        rw [← hi, hid]
      · rintro rfl
        have := h.node_index.mpr ⟨history, hi, rfl⟩
        rwa [hj, Option.some.injEq, eq_comm] at this
    have hs := hat _ _ ha.source
    have ht := hat _ _ ha.target
    have hrow : stableRow (Change.commit p (.record fact source target)) i = stableRow p i := rfl
    have hdelta : ((Change.commit p (.record fact source target)).incidentDelta i).getD [] =
        (p.incidentDelta i).getD [] ++ (if Touches history.id fact then [p.facts.length] else []) := by
      simp only [Change.commit]
      split
      · rename_i hne
        rw [pushDelta_getD, pushDelta_getD, List.append_assoc]
        -- The two ends differ, so at most one of the two pushes is at this row.
        by_cases h₁ : i = source
        · have h₂ : ¬ i = target := fun he => hne (he.symm.trans h₁)
          simp [Touches, h₁, hs.mp h₁, Ne.symm hne]
        · by_cases h₂ : i = target
          · simp [Touches, h₂, ht.mp h₂, hne]
          · simp [Touches, h₁, h₂, ← hs, ← ht]
      · rename_i heq
        rw [not_not] at heq
        subst heq
        rw [pushDelta_getD]
        simp only [Touches, ← hs, ← ht, or_self]
    rw [hrow, hdelta, ← List.append_assoc, h.row i history hi]
    exact (incidentIndexes_append p.facts fact history.id).symm

end Indexed

namespace Sound

theorem revise (hp : Valid p) {index : Nat} {history : NodeHistory} {revision : NodeRevision}
    (hv : revision.node.validate = .ok ()) (hk : p.nodeLookup.get revision.node.id = some index)
    (hs : p.nodes[index]? = some history) :
    Sound (Change.commit p (.revise index history revision)).data := by
  have hindexed : Indexed (Change.commit p (.revise index history revision)) := hp.indexed.revise hs
  have hids (id : EntityId) :
      id ∈ (Change.commit p (.revise index history revision)).nodes.map NodeHistory.id ↔
        id ∈ p.nodes.map NodeHistory.id := by
    rw [← not_iff_not, ← hindexed.nodeLookup.get_eq_none, ← hp.indexed.nodeLookup.get_eq_none]
    rfl
  have hid : revision.node.id = history.id := by
    obtain ⟨other, ho, hid⟩ := hp.indexed.node_index.mp hk
    rw [hs, Option.some.injEq] at ho
    rw [← hid, ho]
  refine ⟨hindexed.nodeLookup.nodup, ?_, hp.sound.factIds, hp.sound.valid, ?_, hp.sound.supersessions,
    hp.sound.retractions⟩
  · intro other ho
    rcases List.mem_or_eq_of_mem_set ho with ho | rfl
    · exact hp.sound.revisions other ho
    · have hold := checkRevisions_eq_ok.mp (hp.sound.revisions history (List.mem_of_getElem? hs))
      refine checkRevisions_eq_ok.mpr fun r hr => ?_
      simp only [NodeHistory.revisions, List.mem_cons, List.mem_append, List.not_mem_nil, or_false] at hr hold
      rcases hr with rfl | hr | rfl
      · exact hold _ (.inl rfl)
      · exact hold r (.inr hr)
      · exact ⟨hv, hid⟩
  · intro fact hf
    obtain ⟨hsource, htarget⟩ := hp.sound.endpoints fact hf
    exact ⟨(hids _).mpr hsource, (hids _).mpr htarget⟩

theorem add (hp : Valid p) {revision : NodeRevision} (hv : revision.node.validate = .ok ())
    (hu : p.nodeLookup.get revision.node.id = none) : Sound (Change.commit p (.add revision)).data := by
  refine ⟨(Indexed.add hp hu).nodeLookup.nodup, ?_, hp.sound.factIds, hp.sound.valid, ?_,
    hp.sound.supersessions, hp.sound.retractions⟩
  · intro history hh
    rcases List.mem_append.mp hh with hh | hh
    · exact hp.sound.revisions history hh
    · obtain rfl := List.mem_singleton.mp hh
      exact checkRevisions_eq_ok.mpr (List.forall_mem_singleton.mpr ⟨hv, rfl⟩)
  · intro fact hf
    obtain ⟨hsource, htarget⟩ := hp.sound.endpoints fact hf
    simp only [MemoryProjection.data, Change.commit, List.map_append]
    exact ⟨List.mem_append_left _ hsource, List.mem_append_left _ htarget⟩

theorem record (hp : Valid p) {fact : MemoryFact} {source target : Nat}
    (ha : FactAdmitted p fact source target) :
    Sound (Change.commit p (.record fact source target)).data := by
  have hmem (id : EntityId) (i : Nat) (hi : p.nodeLookup.get id = some i) :
      id ∈ p.nodes.map NodeHistory.id := List.mem_of_getElem? ((hp.indexed.nodeLookup id i).mp hi)
  refine ⟨hp.sound.nodeIds, hp.sound.revisions, (hp.indexed.record ha).factLookup.nodup, ?_, ?_, ?_, ?_⟩
  · exact List.forall_mem_append.mpr ⟨hp.sound.valid, List.forall_mem_singleton.mpr ha.valid⟩
  · exact List.forall_mem_append.mpr ⟨hp.sound.endpoints,
      List.forall_mem_singleton.mpr ⟨hmem _ _ ha.source, hmem _ _ ha.target⟩⟩
  · intro prior change hc
    have hold (h : p.supersessions[prior]? = some change) := hp.sound.supersessions prior change h
    simp only [MemoryProjection.data, Change.commit, List.map_append, List.mem_append] at hc ⊢
    unfold supersede at hc
    cases hs : fact.supersedes with
    | none =>
        rw [hs] at hc
        obtain ⟨hprior, other, ho, hrest⟩ := hold hc
        exact ⟨.inl hprior, other, .inl ho, hrest⟩
    | some replaced =>
        simp only [hs, Std.ExtTreeMap.getElem?_insert] at hc
        split at hc
        · rename_i he
          obtain rfl : replaced = prior := Std.LawfulEqOrd.eq_of_compare he
          rw [Option.some.injEq] at hc
          subst hc
          have hknown := (ha.prior replaced hs).1
          refine ⟨.inl ?_, fact, .inr List.mem_cons_self, rfl, hs, rfl, rfl⟩
          rw [ne_eq, hp.indexed.factLookup.get_eq_none, not_not] at hknown
          exact hknown
        · obtain ⟨hprior, other, ho, hrest⟩ := hold hc
          exact ⟨.inl hprior, other, .inl ho, hrest⟩
  · intro id change hc
    obtain ⟨other, ho, hrest⟩ := hp.sound.retractions id change hc
    exact ⟨other, List.mem_append_left _ ho, hrest⟩

theorem retract (hp : Valid p) {factId : FactId} {retraction : Retraction} {fact : MemoryFact}
    (hf : fact ∈ p.facts) (hid : fact.id = factId) (hlater : fact.validFrom < retraction.validUntil) :
    Sound (Change.commit p (.retract factId retraction)).data := by
  refine { hp.sound with retractions := ?_ }
  intro id change hc
  simp only [MemoryProjection.data, Change.commit, Std.ExtTreeMap.getElem?_insert] at hc
  split at hc
  · rename_i he
    obtain rfl : factId = id := Std.LawfulEqOrd.eq_of_compare he
    rw [Option.some.injEq] at hc
    subst hc
    exact ⟨fact, hf, hid, hlater⟩
  · exact hp.sound.retractions id change hc

end Sound

theorem Valid.applied (hp : Valid p) {event : StoredEvent MemoryEvent} {change : Change}
    (h : Admitted p event.metadata event.payload change) : Valid (change.applied p event) := by
  suffices hc : Valid (change.commit p) from ⟨{ hc.sound with }, { hc.indexed with }⟩
  rcases event with ⟨metadata, payload⟩
  cases h with
  | revise hv hk hs => exact ⟨Sound.revise hp hv hk hs, hp.indexed.revise hs⟩
  | add hv hu => exact ⟨Sound.add hp hv hu, Indexed.add hp hu⟩
  | record _ _ _ ha => exact ⟨Sound.record hp ha, hp.indexed.record ha⟩
  | retract hk hs hlater _ _ =>
      obtain ⟨fact, hf, hid⟩ := hp.indexed.fact_index.mp hk
      rw [hs, Option.some.injEq] at hf
      subst hf
      exact ⟨Sound.retract hp (List.mem_of_getElem? hs) hid hlater, { hp.indexed with }⟩

/-- Every update, accepted or not, leaves a valid projection valid. -/
theorem Valid.apply (hp : Valid p) (event : StoredEvent MemoryEvent) : Valid (after (Memory.apply event p)) := by
  rcases after_apply event p with h | ⟨change, hc, h⟩
  · rwa [h]
  · rw [h]
    exact hp.applied hc

theorem Valid.applyOwned (hp : Valid p) (event : StoredEvent MemoryEvent) :
    Valid (after (Memory.applyOwned event p)) := by
  rw [applyOwned_eq, ← apply_eq]
  exact hp.apply event

/-- The projections that applying events to a new one leads to, whether the events are accepted or
not. -/
inductive Reached (seeds : Seeds) : MemoryProjection → Prop
  | default : Reached seeds (.default seeds)
  | apply {p : MemoryProjection} (event : StoredEvent MemoryEvent) :
      Reached seeds p → Reached seeds (after (Memory.apply event p))
  | applyOwned {p : MemoryProjection} (event : StoredEvent MemoryEvent) :
      Reached seeds p → Reached seeds (after (Memory.applyOwned event p))

theorem Reached.valid {seeds : Seeds} (h : Reached seeds p) : Valid p := by
  induction h with
  | default => exact valid_default seeds
  | apply event _ ih => exact ih.apply event
  | applyOwned event _ ih => exact ih.applyOwned event

def applyAll (seeds : Seeds) (events : List (StoredEvent MemoryEvent)) : MemoryProjection :=
  events.foldl (fun p event => after (Memory.apply event p)) (.default seeds)

theorem reached_applyAll (seeds : Seeds) (events : List (StoredEvent MemoryEvent)) :
    Reached seeds (applyAll seeds events) := by
  suffices h : ∀ p, Reached seeds p →
      Reached seeds (events.foldl (fun p event => after (Memory.apply event p)) p) from h _ .default
  induction events with
  | nil => exact fun _ h => h
  | cons event events ih => exact fun p h => ih _ (.apply event h)

theorem Indexed.stableRow_eq (h : Indexed p) {i : Nat} (hi : i < p.nodes.length) :
    ∃ lo hi, getAt p.incidentOffsets i = .ok lo ∧ getAt p.incidentOffsets (i + 1) = .ok hi ∧
      sliceAt p.incidentFacts lo hi = .ok (stableRow p i) := by
  have hlen := h.offsets_length
  have hlo : i < p.incidentOffsets.length := by omega
  have hhi : i + 1 < p.incidentOffsets.length := by omega
  have hle : p.incidentOffsets[i] ≤ p.incidentOffsets[i + 1] :=
    List.pairwise_iff_getElem.mp h.offsets_sorted i (i + 1) hlo hhi (Nat.lt_succ_self i)
  have hlast := h.offset_le_last (List.getElem_mem hhi)
  refine ⟨_, _, getAt_eq_ok.mpr (List.getElem?_eq_getElem hlo),
    getAt_eq_ok.mpr (List.getElem?_eq_getElem hhi), ?_⟩
  rw [sliceAt_of_le hle hlast, stableRow, List.getD_eq_getElem _ _ hlo, List.getD_eq_getElem _ _ hhi]

/-- The enumeration of an entity's facts: each fact that touches it once, in the order in which
the facts were recorded. -/
theorem Valid.incidentFactIds_eq (hp : Valid p) (id : EntityId) :
    incidentFactIds p id = .ok ((p.facts.filter (fun fact => Touches id fact)).map MemoryFact.id) := by
  have h := hp.indexed
  unfold incidentFactIds
  cases hg : p.nodeLookup.get id with
  | none =>
      have hnone : p.facts.filter (fun fact => Touches id fact) = [] := by
        rw [List.filter_eq_nil_iff]
        intro fact hf ht
        rw [decide_eq_true_eq] at ht
        have hid := h.nodeLookup.get_eq_none.mp hg
        rcases ht with ht | ht
        · exact hid (ht ▸ (hp.sound.endpoints fact hf).1)
        · exact hid (ht ▸ (hp.sound.endpoints fact hf).2)
      rw [hnone]
      rfl
  | some i =>
      obtain ⟨history, hs, hid⟩ := h.node_index.mp hg
      obtain ⟨lo, hi, hlo, hhi, hslice⟩ := h.stableRow_eq (h.node_lt hg)
      have hmap := mapM_getAt p.facts (p.facts.zipIdx.filter (fun e => Touches id e.1)) (by
        intro e he
        exact List.mem_zipIdx_iff_getElem?.mp (List.mem_filter.mp he).1)
      have hfirst : (p.facts.zipIdx.filter (fun e => Touches id e.1)).map (·.1) =
          p.facts.filter (fun fact => Touches id fact) := by
        have hfilter : (p.facts.zipIdx.map Prod.fst).filter (fun fact => Touches id fact) =
            (p.facts.zipIdx.filter (fun e => Touches id e.1)).map Prod.fst := List.filter_map
        rw [List.zipIdx_map_fst] at hfilter
        exact hfilter.symm
      simp only [hlo, hhi, hslice, ok_bind, h.row i history hs, hid]
      rw [incidentIndexes, hmap, hfirst]
      rfl

def Records (facts : List MemoryFact) (supersessions : BTreeMap FactId Supersession) : Prop :=
  ∀ prior change, supersessions[prior]? = some change ↔
    ∃ fact ∈ facts, fact.supersedes = some prior ∧ change = ⟨fact.id, fact.validFrom, fact.recordedAt⟩

namespace Records

variable {facts : List MemoryFact} {supersessions : BTreeMap FactId Supersession}

theorem nil : Records [] ∅ := by
  intro prior change
  simp

theorem supersede (h : Records facts supersessions) {fact : MemoryFact}
    (hfresh : ∀ prior, fact.supersedes = some prior → supersessions[prior]? = none) :
    Records (facts ++ [fact]) (Admission.supersede supersessions fact) := by
  intro prior change
  simp only [List.mem_append, List.mem_singleton, or_and_right, exists_or, exists_eq_left]
  rw [← h prior change]
  unfold Admission.supersede
  cases hs : fact.supersedes with
  | none => simp
  | some replaced =>
      simp only [Std.ExtTreeMap.getElem?_insert, Option.some.injEq]
      by_cases he : replaced = prior
      · subst he
        simp [hfresh replaced hs, eq_comm]
      · have hc : compare replaced prior ≠ .eq := fun hc => he (Std.LawfulEqOrd.eq_of_compare hc)
        simp [he, hc]

theorem ext {facts' : List MemoryFact} {supersessions' : BTreeMap FactId Supersession}
    (h : Records facts supersessions) (h' : Records facts' supersessions')
    (hmem : ∀ fact, fact ∈ facts ↔ fact ∈ facts') : supersessions = supersessions' := by
  apply Std.ExtTreeMap.ext_getElem?
  intro prior
  apply Option.ext
  intro change
  rw [h prior change, h' prior change]
  simp only [hmem]

theorem id_unique (h : Records facts supersessions) {f g : MemoryFact} (hf : f ∈ facts) (hg : g ∈ facts)
    {prior : FactId} (hfp : f.supersedes = some prior) (hgp : g.supersedes = some prior) : f.id = g.id := by
  have hf := (h prior _).mpr ⟨f, hf, hfp, rfl⟩
  rw [(h prior _).mpr ⟨g, hg, hgp, rfl⟩, Option.some.injEq, Supersession.mk.injEq] at hf
  exact hf.1.symm

end Records

end WeavatrixMemory.Projection.Invariant
