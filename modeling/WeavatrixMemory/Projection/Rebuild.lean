import WeavatrixMemory.Projection.Incidents
import WeavatrixMemory.Projection.Invariant

namespace WeavatrixMemory.Projection.Rebuild

open Error Identity Domain Index State Memory Incidents Invariant CompressedRows Outcome

theorem safe_validateText (field : String) (value : Text) : Safe (validateText field value) := by
  unfold validateText
  split <;> rintro ⟨⟩

theorem safe_validateOptionalText (field : String) (value : Option Text) :
    Safe (validateOptionalText field value) := by
  cases value with
  | none => exact safe_ok ()
  | some value => exact safe_validateText field value

theorem safe_validateAttributeKeys (keys : List Text) : Safe (validateAttributeKeys keys) := by
  induction keys with
  | nil => exact safe_ok ()
  | cons key rest ih => exact (safe_validateText _ key).bind fun _ _ => ih

theorem safe_validateNode (node : MemoryNode) : Safe node.validate :=
  (safe_validateText _ _).bind fun _ _ =>
    (safe_throwIf (by nofun)).bind fun _ _ =>
      (safe_validateOptionalText _ _).bind fun _ _ =>
        (safe_validateOptionalText _ _).bind fun _ _ => safe_validateAttributeKeys _

theorem safe_validateEvidence (evidence : List Evidence) : Safe (validateEvidence evidence) := by
  induction evidence with
  | nil => exact safe_ok ()
  | cons e rest ih =>
      refine Safe.bind ?_ fun _ _ => ih
      exact (safe_validateText _ _).bind fun _ _ => (safe_validateText _ _).bind fun _ _ =>
        (safe_validateOptionalText _ _).bind fun _ _ => safe_validateOptionalText _ _

theorem safe_validateFact (fact : MemoryFact) : Safe fact.validate :=
  (safe_validateText _ _).bind fun _ _ =>
    (safe_throwIf (by nofun)).bind fun _ _ =>
      (safe_throwIf (by nofun)).bind fun _ _ =>
        (safe_throwIf (by nofun)).bind fun _ _ => safe_validateEvidence _

theorem safe_checkRevisions (id : EntityId) (revisions : List NodeRevision) :
    Safe (checkRevisions id revisions) := by
  induction revisions with
  | nil => exact safe_ok ()
  | cons revision rest ih =>
      exact (safe_validateNode _).bind fun _ _ => (safe_throwIf (by nofun)).bind fun _ _ => ih

theorem safe_entityIndex (lookup : IdIndex EntityId) (id : EntityId) : Safe (entityIndex lookup id) := by
  unfold entityIndex
  split <;> rintro ⟨⟩

/-- The only ways a rebuild fails: it met data that breaks the stated condition. -/
def Rejects (condition : Prop) (e : MemoryError) : Prop := e ≠ .panicked ∧ ¬ condition

theorem indexNodes_holds (rest : List NodeHistory) {done : List EntityId} {lookup : IdIndex EntityId}
    (h : IndexOf lookup done) :
    Holds
      (fun lookup => IndexOf lookup (done ++ rest.map NodeHistory.id) ∧
        ∀ history ∈ rest, checkRevisions history.id history.revisions = .ok ())
      (Rejects ((done ++ rest.map NodeHistory.id).Nodup ∧
        ∀ history ∈ rest, checkRevisions history.id history.revisions = .ok ()))
      (indexNodes done.length rest lookup) := by
  induction rest generalizing done lookup with
  | nil => exact ⟨by simpa using h, fun _ h => absurd h List.not_mem_nil⟩
  | cons history rest ih =>
      have hsplit : done ++ (history :: rest).map NodeHistory.id =
          (done ++ [history.id]) ++ rest.map NodeHistory.id := by simp
      rw [hsplit]
      refine Holds.check ?_ fun _ hc => Holds.check ?_ fun _ hn => ?_
      · intro e he
        refine ⟨fun hp => safe_checkRevisions _ _ (hp ▸ he), fun hc => ?_⟩
        rw [hc.2 history List.mem_cons_self] at he
        cases he
      · intro e he
        obtain ⟨hs, rfl⟩ := throwIf_eq_error.mp he
        refine ⟨nofun, fun hc => h.repeats hs (rest.map NodeHistory.id) ?_⟩
        rw [List.append_cons]
        exact hc.1
      · rw [throwIf_eq_ok, h.insert_isSome, ← h.get_eq_none] at hn
        have hrec := ih (h.insert hn)
        rw [List.length_append, List.length_singleton] at hrec
        refine hrec.mono ?_ ?_
        · rintro lookup ⟨hi, hr⟩
          exact ⟨hi, List.forall_mem_cons.mpr ⟨hc, hr⟩⟩
        · rintro e ⟨he, hr⟩
          exact ⟨he, fun hc => hr ⟨hc.1, (List.forall_mem_cons.mp hc.2).2⟩⟩

def EndpointsOf (nodes : IdIndex EntityId) (facts : List MemoryFact) (endpoints : List (Nat × Nat)) :
    Prop :=
  List.Forall₂ (fun fact e => nodes.get fact.source = some e.1 ∧ nodes.get fact.target = some e.2)
    facts endpoints

def FactsFit (nodes : IdIndex EntityId) (facts : List MemoryFact) : Prop :=
  ∀ fact ∈ facts, fact.validate = .ok () ∧ nodes.get fact.source ≠ none ∧ nodes.get fact.target ≠ none

theorem entityIndex_rejects {nodes : IdIndex EntityId} {id : EntityId} {e : MemoryError}
    (he : entityIndex nodes id = .error e) : Rejects (nodes.get id ≠ none) e := by
  refine ⟨fun hp => safe_entityIndex _ _ (hp ▸ he), fun hc => ?_⟩
  obtain ⟨i, hi⟩ := Option.ne_none_iff_exists'.mp hc
  rw [Admission.entityIndex_eq_ok.mpr hi] at he
  cases he

theorem Rejects.mono {c c' : Prop} {e : MemoryError} (h : Rejects c e) (hc : c' → c) : Rejects c' e :=
  ⟨h.1, fun h' => h.2 (hc h')⟩

theorem indexFacts_holds (nodes : IdIndex EntityId) (rest : List MemoryFact) {done : List FactId}
    {lookup : IdIndex FactId} (h : IndexOf lookup done) :
    Holds
      (fun r => IndexOf r.2 (done ++ rest.map MemoryFact.id) ∧ FactsFit nodes rest ∧
        EndpointsOf nodes rest r.1)
      (Rejects ((done ++ rest.map MemoryFact.id).Nodup ∧ FactsFit nodes rest))
      (indexFacts nodes done.length rest lookup) := by
  induction rest generalizing done lookup with
  | nil => exact ⟨by simpa using h, fun _ h => absurd h List.not_mem_nil, .nil⟩
  | cons fact rest ih =>
      have hsplit : done ++ (fact :: rest).map MemoryFact.id =
          (done ++ [fact.id]) ++ rest.map MemoryFact.id := by simp
      rw [hsplit]
      refine Holds.check ?_ fun _ hv => Holds.check ?_ fun source hs => Holds.check ?_ fun target ht =>
        Holds.check ?_ fun _ hn => ?_
      · intro e he
        refine ⟨fun hp => safe_validateFact _ (hp ▸ he), fun hc => ?_⟩
        rw [(hc.2 fact List.mem_cons_self).1] at he
        cases he
      · intro e he
        exact (entityIndex_rejects he).mono fun hc => (hc.2 fact List.mem_cons_self).2.1
      · intro e he
        exact (entityIndex_rejects he).mono fun hc => (hc.2 fact List.mem_cons_self).2.2
      · intro e he
        obtain ⟨hs, rfl⟩ := throwIf_eq_error.mp he
        refine ⟨nofun, fun hc => h.repeats hs (rest.map MemoryFact.id) ?_⟩
        rw [List.append_cons]
        exact hc.1
      · rw [throwIf_eq_ok, h.insert_isSome, ← h.get_eq_none] at hn
        rw [Admission.entityIndex_eq_ok] at hs ht
        have hrec := ih (h.insert hn)
        rw [List.length_append, List.length_singleton] at hrec
        have hfit : fact.validate = .ok () ∧ nodes.get fact.source ≠ none ∧ nodes.get fact.target ≠ none :=
          ⟨hv, by rw [hs]; exact Option.some_ne_none _, by rw [ht]; exact Option.some_ne_none _⟩
        refine Holds.bind (hrec.mono (fun _ h => h) ?_) ?_
        · rintro e ⟨he, hr⟩
          exact ⟨he, fun hc => hr ⟨hc.1, (List.forall_mem_cons.mp hc.2).2⟩⟩
        · rintro ⟨endpoints, lookup⟩ ⟨hi, hr, hforall⟩
          exact ⟨hi, List.forall_mem_cons.mpr ⟨hfit, hr⟩, .cons ⟨hs, ht⟩ hforall⟩

theorem EndpointsOf.mem {nodes : IdIndex EntityId} {facts : List MemoryFact} {endpoints : List (Nat × Nat)}
    (h : EndpointsOf nodes facts endpoints) :
    ∀ e ∈ endpoints, ∃ fact ∈ facts, nodes.get fact.source = some e.1 ∧ nodes.get fact.target = some e.2 := by
  induction h with
  | nil => exact fun _ h => absurd h List.not_mem_nil
  | cons he _ ih =>
      refine List.forall_mem_cons.mpr ⟨⟨_, List.mem_cons_self, he⟩, fun e h => ?_⟩
      obtain ⟨fact, hf, hr⟩ := ih e h
      exact ⟨fact, List.mem_cons_of_mem _ hf, hr⟩

theorem EndpointsOf.row_eq {nodes : IdIndex EntityId} {ids : List EntityId} (hn : IndexOf nodes ids)
    {facts : List MemoryFact} {endpoints : List (Nat × Nat)} (h : EndpointsOf nodes facts endpoints)
    {i : Nat} {id : EntityId} (hi : ids[i]? = some id) :
    row (placements 0 endpoints) i = incidentIndexes facts id := by
  rw [row_placements, incidentIndexes]
  generalize 0 = k
  have hget : nodes.get id = some i := (hn id i).mpr hi
  have hat {other : EntityId} {j : Nat} (hj : nodes.get other = some j) : j = i ↔ other = id := by
    constructor
    · rintro rfl
      have := (hn other j).mp hj
      rwa [hi, Option.some.injEq, eq_comm] at this
    · rintro rfl
      rwa [hget, Option.some.injEq, eq_comm] at hj
  induction h generalizing k with
  | nil => rfl
  | @cons fact e facts endpoints he _ ih =>
      have htouch : (e.1 = i ∨ e.2 = i) ↔ Touches id fact := or_congr (hat he.1) (hat he.2)
      rw [List.zipIdx_cons, List.zipIdx_cons, List.filter_cons, List.filter_cons]
      by_cases ht : Touches id fact
      · rw [if_pos (decide_eq_true (htouch.mpr ht)), if_pos (decide_eq_true ht), List.map_cons,
          List.map_cons, ih]
      · have hne : ¬ (e.1 = i ∨ e.2 = i) := fun h => ht (htouch.mp h)
        rw [if_neg (by simpa using hne), if_neg (by simpa using ht), ih]

theorem Rows.indexed {p : MemoryProjection} {endpoints : List (Nat × Nat)} {offsets incidents : List Nat}
    (hn : IndexOf p.nodeLookup (p.nodes.map NodeHistory.id))
    (hf : IndexOf p.factLookup (p.facts.map MemoryFact.id))
    (he : EndpointsOf p.nodeLookup p.facts endpoints)
    (h : Rows p.nodes.length (placements 0 endpoints) offsets incidents) :
    Indexed { p with
      incidentOffsets := offsets
      incidentFacts := incidents
      incidentDelta := fun _ => none } where
  nodeLookup := hn
  factLookup := hf
  offsets_length := by simp [h.offsets_eq]
  offsets_sorted := by
    simp only [h.offsets_eq, List.pairwise_map]
    exact List.pairwise_lt_range.imp fun hlt => start_mono _ hlt.le
  offsets_last := by
    simp only [h.offsets_eq, List.getLast?_map, List.getLast?_range, h.length]
    rfl
  delta_none _ _ := rfl
  row i history hi := by
    have hlt : i < p.nodes.length := (List.getElem?_eq_some_iff.mp hi).1
    have hget (j : Nat) (hj : j < p.nodes.length + 1) : offsets.getD j 0 = start (placements 0 endpoints) j := by
      rw [h.offsets_eq, List.getD_eq_getElem?_getD, List.getElem?_map, List.getElem?_range hj]
      rfl
    simp only [stableRow, hget i (by omega), hget (i + 1) (by omega), h.slice i hlt, Option.getD_none,
      List.append_nil]
    exact he.row_eq hn (by rw [List.getElem?_map, hi]; rfl)

theorem lookupFact_eq_ok {p : MemoryProjection} (hf : IndexOf p.factLookup (p.facts.map MemoryFact.id))
    {id : FactId} {fact : MemoryFact} :
    p.lookupFact id = .ok fact ↔ fact ∈ p.facts ∧ fact.id = id := by
  unfold MemoryProjection.lookupFact
  constructor
  · intro h
    cases hg : p.factLookup.get id with
    | none => simp [hg] at h
    | some i =>
        simp only [hg, getAt_eq_ok] at h
        have hi := (hf id i).mp hg
        rw [List.getElem?_map, h, Option.map_some, Option.some.injEq] at hi
        exact ⟨List.mem_of_getElem? h, hi⟩
  · rintro ⟨hm, rfl⟩
    obtain ⟨i, hi⟩ := List.mem_iff_getElem?.mp hm
    have hg : p.factLookup.get fact.id = some i := (hf _ _).mpr (by rw [List.getElem?_map, hi]; rfl)
    simp only [hg, getAt_eq_ok, hi]

theorem safe_lookupFact {p : MemoryProjection} (hf : IndexOf p.factLookup (p.facts.map MemoryFact.id))
    (id : FactId) : Safe (p.lookupFact id) := by
  unfold MemoryProjection.lookupFact
  cases hg : p.factLookup.get id with
  | none => exact nofun
  | some i =>
      have hi := (hf id i).mp hg
      rw [List.getElem?_map, Option.map_eq_some_iff] at hi
      obtain ⟨fact, hs, _⟩ := hi
      simp only [getAt_eq_ok.mpr hs]
      exact safe_ok fact

def SupersessionBacked (facts : List MemoryFact) (prior : FactId) (change : Supersession) : Prop :=
  prior ∈ facts.map MemoryFact.id ∧ ∃ fact ∈ facts, fact.id = change.replacement ∧
    fact.supersedes = some prior ∧ fact.validFrom = change.validFrom ∧
    fact.recordedAt = change.recordedAt

def RetractionBacked (facts : List MemoryFact) (id : FactId) (change : Retraction) : Prop :=
  ∃ fact ∈ facts, fact.id = id ∧ fact.validFrom < change.validUntil

theorem validateSupersessions_eq_ok {p : MemoryProjection}
    (hf : IndexOf p.factLookup (p.facts.map MemoryFact.id)) (entries : List (FactId × Supersession)) :
    p.validateSupersessions entries = .ok () ↔ ∀ e ∈ entries, SupersessionBacked p.facts e.1 e.2 := by
  induction entries with
  | nil => simp [MemoryProjection.validateSupersessions]
  | cons e rest ih =>
      rcases e with ⟨prior, change⟩
      simp only [MemoryProjection.validateSupersessions, bind_eq_ok, throwIf_eq_ok, lookupFact_eq_ok hf, ih,
        not_or, ne_eq, not_not, List.forall_mem_cons]
      constructor
      · rintro ⟨f, ⟨hm, rfl⟩, g, ⟨hg, hid⟩, _, ⟨hs, hv, hr⟩, hrest⟩
        exact ⟨⟨List.mem_map_of_mem hm, g, hg, hid, hs, hv, hr⟩, hrest⟩
      · rintro ⟨⟨hprior, g, hg, hid, hs, hv, hr⟩, hrest⟩
        obtain ⟨f, hm, rfl⟩ := List.mem_map.mp hprior
        exact ⟨f, ⟨hm, rfl⟩, g, ⟨hg, hid⟩, (), ⟨hs, hv, hr⟩, hrest⟩

theorem validateRetractions_eq_ok {p : MemoryProjection}
    (hf : IndexOf p.factLookup (p.facts.map MemoryFact.id)) (entries : List (FactId × Retraction)) :
    p.validateRetractions entries = .ok () ↔ ∀ e ∈ entries, RetractionBacked p.facts e.1 e.2 := by
  induction entries with
  | nil => simp [MemoryProjection.validateRetractions]
  | cons e rest ih =>
      rcases e with ⟨id, change⟩
      simp only [MemoryProjection.validateRetractions, bind_eq_ok, throwIf_eq_ok, lookupFact_eq_ok hf, ih,
        not_le, List.forall_mem_cons]
      constructor
      · rintro ⟨f, ⟨hm, rfl⟩, _, hv, hrest⟩
        exact ⟨⟨f, hm, rfl, hv⟩, hrest⟩
      · rintro ⟨⟨f, hm, rfl, hv⟩, hrest⟩
        exact ⟨f, ⟨hm, rfl⟩, (), hv, hrest⟩

theorem safe_validateChanges {p : MemoryProjection}
    (hf : IndexOf p.factLookup (p.facts.map MemoryFact.id)) : Safe p.validateChanges := by
  have hsup (entries : List (FactId × Supersession)) : Safe (p.validateSupersessions entries) := by
    induction entries with
    | nil => exact safe_ok ()
    | cons e rest ih =>
        exact (safe_lookupFact hf _).bind fun _ _ => (safe_lookupFact hf _).bind fun _ _ =>
          (safe_throwIf (by nofun)).bind fun _ _ => ih
  have hret (entries : List (FactId × Retraction)) : Safe (p.validateRetractions entries) := by
    induction entries with
    | nil => exact safe_ok ()
    | cons e rest ih =>
        exact (safe_lookupFact hf _).bind fun _ _ => (safe_throwIf (by nofun)).bind fun _ _ => ih
  exact (hsup _).bind fun _ _ => hret _

theorem forall_toList {κ β : Type} [Ord κ] [Std.TransOrd κ] [Std.LawfulEqOrd κ] {m : BTreeMap κ β}
    {q : κ → β → Prop} : (∀ e ∈ m.toList, q e.1 e.2) ↔ ∀ k v, m[k]? = some v → q k v := by
  constructor
  · intro h k v hk
    exact h (k, v) (Std.ExtTreeMap.mem_toList_iff_getElem?_eq_some.mpr hk)
  · rintro h ⟨k, v⟩ he
    exact h k v (Std.ExtTreeMap.mem_toList_iff_getElem?_eq_some.mp he)

theorem validateChanges_eq_ok {p : MemoryProjection}
    (hf : IndexOf p.factLookup (p.facts.map MemoryFact.id)) :
    p.validateChanges = .ok () ↔
      (∀ prior change, p.supersessions[prior]? = some change → SupersessionBacked p.facts prior change) ∧
      ∀ id change, p.retractions[id]? = some change → RetractionBacked p.facts id change := by
  simp only [MemoryProjection.validateChanges, unit_bind_eq_ok, validateSupersessions_eq_ok hf,
    validateRetractions_eq_ok hf, forall_toList]

/-- Decoding rebuilds every derived field. It accepts exactly sound data, short of a count of
incidences that leaves the machine word. -/
theorem deserialize_holds (seeds : Seeds) (data : ProjectionData) :
    Holds (fun p => p.data = data ∧ Valid p)
      (fun e => Overflows (2 * data.facts.length < 2 ^ 64) e ∨ Rejects (Sound data) e)
      (data.deserialize seeds) := by
  unfold ProjectionData.deserialize ProjectionData.unindexed MemoryProjection.rebuildIndexes
  have hnodes := indexNodes_holds data.nodes (indexOf_withSeed seeds.nodes)
  refine Holds.bind (hnodes.mono (fun _ h => h) ?_) ?_
  · intro e he
    exact .inr (he.mono fun hs => ⟨by simpa using hs.nodeIds, hs.revisions⟩)
  rintro nodes ⟨hn, hrev⟩
  rw [List.nil_append] at hn
  have hfit (hs : Sound data) : FactsFit nodes data.facts := by
    intro fact hf
    obtain ⟨hsource, htarget⟩ := hs.endpoints fact hf
    exact ⟨hs.valid fact hf, fun h => hn.get_eq_none.mp h hsource, fun h => hn.get_eq_none.mp h htarget⟩
  have hfacts := indexFacts_holds nodes data.facts (indexOf_withSeed seeds.facts)
  refine Holds.bind (hfacts.mono (fun _ h => h) ?_) ?_
  · intro e he
    exact .inr (he.mono fun hs => ⟨by simpa using hs.factIds, hfit hs⟩)
  rintro ⟨endpoints, lookup⟩ ⟨hf, hvalid, hends⟩
  rw [List.nil_append] at hf
  have hlength : data.facts.length = endpoints.length := hends.length_eq
  have hmem (id : EntityId) (i : Nat) (hi : nodes.get id = some i) :
      i < data.nodes.length ∧ id ∈ data.nodes.map NodeHistory.id := by
    have := (hn id i).mp hi
    refine ⟨?_, List.mem_of_getElem? this⟩
    rw [← List.length_map]
    exact (List.getElem?_eq_some_iff.mp this).1
  have hlt : ∀ e ∈ endpoints, e.1 < data.nodes.length ∧ e.2 < data.nodes.length := by
    intro e he
    obtain ⟨fact, _, hs, ht⟩ := hends.mem e he
    exact ⟨(hmem _ _ hs).1, (hmem _ _ ht).1⟩
  refine Holds.bind ((setIncidents_holds _ endpoints hlt).mono (fun _ h => h) ?_) ?_
  · intro e he
    rw [hlength]
    exact .inl he
  rintro _ ⟨offsets, incidents, hrows, rfl⟩
  have hindexed := Rows.indexed hn hf hends hrows
  refine Holds.check ?_ fun _ hc => ?_
  · intro e he
    refine .inr ⟨fun hp => safe_validateChanges hf (hp ▸ he), fun hs => ?_⟩
    rw [(validateChanges_eq_ok hf).mpr ⟨hs.supersessions, hs.retractions⟩] at he
    cases he
  · obtain ⟨hsup, hret⟩ := (validateChanges_eq_ok hf).mp hc
    refine ⟨rfl, ⟨hn.nodup, hrev, hf.nodup, fun fact h => (hvalid fact h).1, ?_, hsup, hret⟩, hindexed⟩
    intro fact h
    obtain ⟨_, hs, ht⟩ := hvalid fact h
    obtain ⟨i, hi⟩ := Option.ne_none_iff_exists'.mp hs
    obtain ⟨j, hj⟩ := Option.ne_none_iff_exists'.mp ht
    exact ⟨(hmem _ _ hi).2, (hmem _ _ hj).2⟩

end WeavatrixMemory.Projection.Rebuild
