import WeavatrixMemory.Common
import WeavatrixMemory.Library.Chains
import WeavatrixMemory.Projection.Parts

namespace WeavatrixMemory.Projection.Supersession

open Error Identity Domain Index State Memory Admission Invariant Rebuild Parts Outcome Chains

def priorOf (facts : List MemoryFact) (id : FactId) : Option FactId :=
  (facts.find? (fun fact => fact.id = id)).bind (·.supersedes)

/-- Following `supersedes` from any of the facts runs out, within as many steps as there are
facts. -/
def ChainsEnd (facts : List MemoryFact) : Prop :=
  ∀ fact ∈ facts, walk (priorOf facts) (facts.length + 1) fact.id = none

instance (facts : List MemoryFact) : Decidable (ChainsEnd facts) :=
  inferInstanceAs (Decidable (∀ _ ∈ _, _))

def insertFacts : List MemoryFact → Update MemoryProjection Unit
  | [] => pure ()
  | fact :: rest => do
      insertFact fact
      insertFacts rest

/-- A supersession index that is in order: no fact supersedes itself, directly or through others,
none is superseded twice, and each chain of replacements has a last fact. -/
structure ChainsSound (p : MemoryProjection) : Prop where
  no_return : ∀ fact ∈ p.facts, ∀ n, walk (priorOf p.facts) (n + 1) fact.id ≠ some fact.id
  one_replacement : ∀ f ∈ p.facts, ∀ g ∈ p.facts, ∀ prior,
    f.supersedes = some prior → g.supersedes = some prior → f = g
  last : ∀ fact ∈ p.facts, ∃ n, ∃ last ∈ p.facts,
    walk (supersededBy p) n fact.id = some last.id ∧ supersededBy p last.id = none

/-- The facts of a projection, put in some order, can be recorded one by one over its nodes, with
the same supersession index as a result. -/
def Recordable (base p : MemoryProjection) : Prop :=
  ∃ order q, order.Perm p.facts ∧ insertFacts order base = .ok () q ∧ q.supersessions = p.supersessions

theorem priorOf_eq_some {facts : List MemoryFact} (hu : (facts.map MemoryFact.id).Nodup) {id prior : FactId} :
    priorOf facts id = some prior ↔ ∃ fact ∈ facts, fact.id = id ∧ fact.supersedes = some prior := by
  unfold priorOf
  rw [Option.bind_eq_some_iff]
  constructor
  · rintro ⟨fact, hf, hs⟩
    exact ⟨fact, List.mem_of_find?_eq_some hf, by simpa using List.find?_some hf, hs⟩
  · rintro ⟨fact, hf, rfl, hs⟩
    cases hfind : facts.find? (fun other => other.id = fact.id) with
    | none => exact absurd (decide_eq_true rfl) (List.find?_eq_none.mp hfind fact hf)
    | some other =>
        have hid : other.id = fact.id := by simpa using List.find?_some hfind
        rw [List.inj_on_of_nodup_map hu (List.mem_of_find?_eq_some hfind) hf hid]
        exact ⟨fact, rfl, hs⟩

theorem supersededBy_eq_some {facts : List MemoryFact} {p : MemoryProjection}
    (h : Records facts p.supersessions) {prior id : FactId} :
    supersededBy p prior = some id ↔ ∃ fact ∈ facts, fact.id = id ∧ fact.supersedes = some prior := by
  unfold supersededBy
  rw [Option.map_eq_some_iff]
  constructor
  · rintro ⟨change, hc, rfl⟩
    obtain ⟨fact, hf, hs, rfl⟩ := (h prior change).mp hc
    exact ⟨fact, hf, rfl, hs⟩
  · rintro ⟨fact, hf, rfl, hs⟩
    exact ⟨_, (h prior _).mpr ⟨fact, hf, hs, rfl⟩, rfl⟩

theorem chainsEnd_of_no_return {facts : List MemoryFact}
    (h : ∀ fact ∈ facts, ∀ n, walk (priorOf facts) (n + 1) fact.id ≠ some fact.id) : ChainsEnd facts := by
  have hmem : ∀ a b, priorOf facts a = some b → a ∈ facts.map MemoryFact.id := by
    intro a b hab
    obtain ⟨fact, hf, _⟩ := Option.bind_eq_some_iff.mp hab
    refine List.mem_map.mpr ⟨fact, List.mem_of_find?_eq_some hf, ?_⟩
    simpa using List.find?_some hf
  intro fact _
  have hends := ends_of_no_return hmem (fun a ha n => ?_) fact.id
  · rwa [List.length_map] at hends
  · obtain ⟨fact, hf, rfl⟩ := List.mem_map.mp ha
    exact h fact hf n

variable {facts : List MemoryFact} {p : MemoryProjection}

theorem supersededBy_iff_priorOf (hu : (facts.map MemoryFact.id).Nodup) (h : Records facts p.supersessions)
    {prior id : FactId} : supersededBy p prior = some id ↔ priorOf facts id = some prior :=
  (supersededBy_eq_some h).trans (priorOf_eq_some hu).symm

theorem chainsSound_of_chainsEnd (hp : Valid p) (hr : Records p.facts p.supersessions)
    (h : ChainsEnd p.facts) : ChainsSound p := by
  have hu := hp.sound.factIds
  have hprior : ∀ a b, supersededBy p a = some b → priorOf p.facts b = some a :=
    fun _ _ hab => (supersededBy_iff_priorOf hu hr).mp hab
  have hno : ∀ fact ∈ p.facts, ∀ n, walk (priorOf p.facts) (n + 1) fact.id ≠ some fact.id :=
    fun fact hf n => no_return_of_ends (h fact hf) n
  refine ⟨hno, ?_, ?_⟩
  · intro f hf g hg prior hfp hgp
    exact hp.indexed.fact_unique hf hg (hr.id_unique hf hg hfp hgp)
  · intro fact hf
    have hends : walk (supersededBy p) (p.supersessions.keys.length + 1) fact.id = none := by
      refine ends_of_no_return ?_ ?_ fact.id
      · intro a b hab
        obtain ⟨change, hc, _⟩ := Option.map_eq_some_iff.mp hab
        rw [Std.ExtTreeMap.mem_keys]
        exact Std.ExtTreeMap.mem_iff_isSome_getElem?.mpr (by rw [hc]; rfl)
      · intro a ha n hw
        rw [Std.ExtTreeMap.mem_keys] at ha
        have hw := walk_inverse hprior hw
        obtain ⟨b, hb, -⟩ := walk_succ_eq_some.mp hw
        obtain ⟨other, ho, rfl, _⟩ := (priorOf_eq_some hu).mp hb
        exact hno other ho n hw
    obtain ⟨n, id, hw, hlast⟩ := exists_last hends
    have hid : id ∈ p.facts.map MemoryFact.id := by
      refine @walk_mem _ _ (· ∈ p.facts.map MemoryFact.id) ?_ n _ id (List.mem_map_of_mem hf) hw
      intro a b hab
      obtain ⟨other, ho, rfl, _⟩ := (supersededBy_eq_some hr).mp hab
      exact List.mem_map_of_mem ho
    obtain ⟨last, hl, rfl⟩ := List.mem_map.mp hid
    exact ⟨n, last, hl, hw, hlast⟩

structure Recording (base : MemoryProjection) (before : List MemoryFact) (q : MemoryProjection) : Prop where
  nodeLookup : q.nodeLookup = base.nodeLookup
  facts : q.facts = before
  factLookup : IndexOf q.factLookup (before.map MemoryFact.id)
  records : Records before q.supersessions

theorem Recording.insert {base q : MemoryProjection} {before : List MemoryFact} (h : Recording base before q)
    {fact : MemoryFact} (hv : fact.validate = .ok ()) (hs : base.nodeLookup.get fact.source ≠ none)
    (ht : base.nodeLookup.get fact.target ≠ none) (hnew : fact.id ∉ before.map MemoryFact.id)
    (hprior : ∀ prior, fact.supersedes = some prior → prior ∈ before.map MemoryFact.id ∧
      ∀ other ∈ before, other.supersedes ≠ some prior) :
    ∃ r, insertFact fact q = .ok () r ∧ Recording base (before ++ [fact]) r := by
  rw [← h.nodeLookup] at hs ht
  obtain ⟨source, hs⟩ := Option.ne_none_iff_exists'.mp hs
  obtain ⟨target, ht⟩ := Option.ne_none_iff_exists'.mp ht
  have hfresh : ∀ prior, fact.supersedes = some prior → q.supersessions[prior]? = none := by
    intro prior hp
    rw [Option.eq_none_iff_forall_ne_some]
    intro change hc
    obtain ⟨other, ho, hos, _⟩ := (h.records prior change).mp hc
    exact (hprior prior hp).2 other ho hos
  have hadmitted : FactAdmitted q fact source target := by
    refine ⟨hv, hs, ht, h.factLookup.get_eq_none.mpr hnew, fun prior hp => ⟨?_, hfresh prior hp⟩⟩
    rw [ne_eq, h.factLookup.get_eq_none, not_not]
    exact (hprior prior hp).1
  refine ⟨Change.commit q (.record fact source target), ?_, h.nodeLookup, ?_, ?_, ?_⟩
  · rw [insertFact_eq, admitFact_eq_ok.mpr ⟨source, target, hadmitted, rfl⟩]
    rfl
  · simp only [Change.commit, h.facts]
  · have hinsert := h.factLookup.insert hadmitted.fresh
    rw [List.length_map] at hinsert
    simp only [Change.commit, h.facts, List.map_append, List.map_singleton]
    exact hinsert
  · exact h.records.supersede hfresh

theorem insertFacts_recording {base : MemoryProjection} (later : List MemoryFact) {before : List MemoryFact}
    {q : MemoryProjection} (h : Recording base before q)
    (hfit : FactsFit base.nodeLookup later)
    (hnodup : ((before ++ later).map MemoryFact.id).Nodup)
    (hprior : ∀ pre fact post, later = pre ++ fact :: post → ∀ prior, fact.supersedes = some prior →
      prior ∈ (before ++ pre).map MemoryFact.id ∧
        ∀ other ∈ before ++ pre, other.supersedes ≠ some prior) :
    ∃ r, insertFacts later q = .ok () r ∧ Recording base (before ++ later) r := by
  induction later generalizing before q with
  | nil => exact ⟨q, rfl, by rwa [List.append_nil]⟩
  | cons fact later ih =>
      obtain ⟨⟨hv, hs, ht⟩, hfit⟩ := List.forall_mem_cons.mp hfit
      have hnew : fact.id ∉ before.map MemoryFact.id := by
        intro hm
        rw [List.map_append, List.nodup_append] at hnodup
        exact hnodup.2.2 _ hm _ List.mem_cons_self rfl
      have hfirst := hprior [] fact later rfl
      rw [List.append_nil] at hfirst
      obtain ⟨r, hr, hrec⟩ := h.insert hv hs ht hnew hfirst
      have hsplit : before ++ fact :: later = (before ++ [fact]) ++ later := by simp
      obtain ⟨t, ht, hdone⟩ := ih hrec hfit (by rwa [← hsplit]) (by
        intro pre other post he prior hp
        have := hprior (fact :: pre) other post (by rw [he]; rfl) prior hp
        rwa [List.append_cons] at this)
      refine ⟨t, ?_, by rwa [hsplit]⟩
      rw [insertFacts, bind_apply, hr]
      exact ht

/-- Without cycles, the facts put in an order of the chains are accepted one after the other. -/
theorem recordable_of_chainsEnd {base : MemoryProjection} (hp : Valid p)
    (hr : Records p.facts p.supersessions)
    (hpriors : ∀ fact ∈ p.facts, ∀ prior, fact.supersedes = some prior → prior ∈ p.facts.map MemoryFact.id)
    (hbase : Recording base [] base) (hnodes : base.nodeLookup = p.nodeLookup) (h : ChainsEnd p.facts) :
    Recordable base p := by
  have hu := hp.sound.factIds
  obtain ⟨order, hperm, hbefore⟩ := exists_perm_links_before MemoryFact.id p.facts h
  have hnodup : (order.map MemoryFact.id).Nodup := ((hperm.map _).nodup_iff).mpr hu
  have hfit : FactsFit base.nodeLookup order := by
    intro fact hf
    have hf := hperm.mem_iff.mp hf
    obtain ⟨hs, ht⟩ := hp.sound.endpoints fact hf
    rw [hnodes]
    refine ⟨hp.sound.valid fact hf, ?_, ?_⟩ <;> rw [ne_eq, hp.indexed.nodeLookup.get_eq_none, not_not]
    · exact hs
    · exact ht
  obtain ⟨q, hq, hrec⟩ := insertFacts_recording order hbase hfit (by rwa [List.nil_append]) (by
    intro pre fact post he prior hs
    rw [List.nil_append]
    have hf : fact ∈ p.facts := hperm.mem_iff.mp (by rw [he]; simp)
    obtain ⟨other, ho, rfl⟩ := List.mem_map.mp (hpriors fact hf prior hs)
    refine ⟨List.mem_map_of_mem ?_, ?_⟩
    · exact hbefore pre fact post he other ho ((priorOf_eq_some hu).mpr ⟨fact, hf, rfl, hs⟩)
    · intro third hthird hts
      have hid := hr.id_unique (hperm.mem_iff.mp (by rw [he]; simp [hthird])) hf hts hs
      rw [he, List.map_append, List.nodup_append] at hnodup
      exact hnodup.2.2 _ (List.mem_map_of_mem hthird) _ List.mem_cons_self hid)
  refine ⟨order, q, hperm, hq, ?_⟩
  rw [List.nil_append] at hrec
  exact hrec.records.ext hr fun fact => hperm.mem_iff

theorem tryFromParts_nodes {seeds : Seeds} (parallelism : Nat) {nodes : List MemoryNode} {knownAt : Timestamp}
    (sourcePosition : Option UInt64) (h : Built seeds nodes facts knownAt p) :
    ∃ base, tryFromParts seeds parallelism nodes [] knownAt sourcePosition = .ok base ∧
      base.nodeLookup = p.nodeLookup ∧ Recording base [] base := by
  obtain ⟨q, hq, hnodes, ⟨added, heq⟩, hlookup⟩ := h.inserted
  have hincidents := Incidents.setIncidents_holds { q with facts := [] } []
    (fun _ h => absurd h List.not_mem_nil)
  obtain ⟨base, hbase, offsets, incidents, -, heq'⟩ :=
    Holds.exists_ok (hincidents.mono (fun _ h => h) fun e he => he.2 (by simp))
  refine ⟨{ base with lastGlobalPosition := sourcePosition }, ?_, ?_, ?_⟩
  · unfold tryFromParts
    rw [hq, ok_bind, prepareFacts_eq, List.mapM_nil]
    refine bind_eq_ok.mpr ⟨[], rfl, bind_eq_ok.mpr ⟨q.factLookup, rfl, bind_eq_ok.mpr ⟨q, rfl, ?_⟩⟩⟩
    exact bind_eq_ok.mpr ⟨base, hbase, rfl⟩
  · rw [heq', hlookup]
  · refine ⟨by rw [heq'], by rw [heq'], ?_, ?_⟩
    · rw [heq', heq]
      exact indexOf_withSeed _
    · rw [heq', heq]
      exact Records.nil

/-- What construction from parts guarantees about supersession is exactly what the given facts
bring along. -/
theorem tryFromParts_chainsSound_iff (seeds : Seeds) (parallelism : Nat) (nodes : List MemoryNode)
    (facts : List MemoryFact) (knownAt : Timestamp) (sourcePosition : Option UInt64) (p : MemoryProjection)
    (h : tryFromParts seeds parallelism nodes facts knownAt sourcePosition = .ok p) :
    (ChainsSound p ∧ ∃ base, tryFromParts seeds parallelism nodes [] knownAt sourcePosition = .ok base ∧
      Recordable base p) ↔ ChainsEnd facts := by
  have hbuilt := (tryFromParts_holds seeds parallelism nodes facts knownAt sourcePosition).of_ok h
  have hrecords := hbuilt.records
  have hpriors := hbuilt.priors
  rw [← hbuilt.facts_eq] at hrecords hpriors ⊢
  constructor
  · rintro ⟨hsound, -⟩
    exact chainsEnd_of_no_return hsound.no_return
  · intro hends
    refine ⟨chainsSound_of_chainsEnd hbuilt.valid hrecords hends, ?_⟩
    obtain ⟨base, hbase, hlookup, hrec⟩ := tryFromParts_nodes parallelism sourcePosition hbuilt
    exact ⟨base, hbase, recordable_of_chainsEnd hbuilt.valid hrecords hpriors hrec hlookup hends⟩

theorem tryFromParts_chainsSound_two :
    ∃ p, (ChainsSound p ∧
        ∃ base, tryFromParts ⟨1, 2⟩ 4 [Common.node Common.task, Common.node Common.file] [] (Common.ts 9)
          none = .ok base ∧ Recordable base p) ↔
      ChainsEnd [Common.fact Common.factTwo (Common.ts 5) (Common.ts 6) (some Common.factOne),
        Common.fact Common.factOne (Common.ts 2) (Common.ts 2) none] :=
  ⟨_, tryFromParts_chainsSound_iff ⟨1, 2⟩ 4 [Common.node Common.task, Common.node Common.file]
    [Common.fact Common.factTwo (Common.ts 5) (Common.ts 6) (some Common.factOne),
      Common.fact Common.factOne (Common.ts 2) (Common.ts 2) none] (Common.ts 9) none _ (by rfl)⟩

/-- A fact that supersedes itself is accepted. -/
theorem tryFromParts_self_supersession :
    ∃ p, tryFromParts ⟨1, 2⟩ 4 [Common.node Common.task, Common.node Common.file]
        [Common.fact Common.factOne (Common.ts 2) (Common.ts 2) (some Common.factOne)] (Common.ts 9) none = .ok p ∧
      ¬ ChainsSound p := by
  refine ⟨_, by rfl, fun h => ?_⟩
  exact h.no_return (Common.fact Common.factOne (Common.ts 2) (Common.ts 2) (some Common.factOne))
    List.mem_cons_self 0 (by decide)

end WeavatrixMemory.Projection.Supersession
