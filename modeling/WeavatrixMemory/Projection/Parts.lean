import WeavatrixMemory.Library.Pairings
import WeavatrixMemory.Projection.Rebuild

namespace WeavatrixMemory.Projection.Parts

open Error Identity Domain Index State Memory Admission Invariant Incidents Rebuild Outcome

structure PreparedFact where
  source : Nat
  target : Nat
  idHash : UInt64

def prepareFact (p : MemoryProjection) (knownAt : Timestamp) (fact : MemoryFact) :
    Result PreparedFact := do
  throwIf (knownAt < fact.recordedAt)
    (.invalidValue "facts" "fact recorded_at must not exceed known_at")
  fact.validate
  let source ← requireEntity p fact.source
  let target ← requireEntity p fact.target
  .ok ⟨source, target, p.factLookup.hash fact.id⟩

def divCeil (n d : Nat) : Nat := (n + d - 1) / d

/-- `slice::chunks`, for as many rounds as the slice has elements. -/
def chunks {α : Type} (size : Nat) : Nat → List α → List (List α)
  | _, [] => []
  | 0, _ => []
  | rounds + 1, xs => xs.take size :: chunks size rounds (xs.drop size)

/-- `handle.join()`: a panic of the worker comes back as an error. -/
def joined {α : Type} : Result α → Result α
  | .error .panicked => .error (.invalidValue "facts" "parallel fact preparation panicked")
  | outcome => outcome

def prepareFacts (parallelism : Nat) (p : MemoryProjection) (facts : List MemoryFact)
    (knownAt : Timestamp) : Result (List PreparedFact) :=
  let workers := max (min parallelism (divCeil facts.length 16384)) 1
  if workers = 1 then facts.mapM (prepareFact p knownAt)
  else do
    let prepared ← (chunks (divCeil facts.length workers) facts.length facts).mapM
      fun chunk => joined (chunk.mapM (prepareFact p knownAt))
    .ok prepared.flatten

def insertNodes (knownAt : Timestamp) : Nat → List MemoryNode → MemoryProjection → Result MemoryProjection
  | _, [], p => .ok p
  | position, node :: rest, p => do
      node.validate
      let index := p.nodes.length
      throwIf ((p.nodeLookup.insert node.id index).1.isSome)
        (.invalidValue "nodes" "node identifiers must be unique")
      let recorded ← u64TryFrom position
      insertNodes knownAt (position + 1) rest { p with
        nodeLookup := (p.nodeLookup.insert node.id index).2
        nodes := p.nodes ++ [NodeHistory.new ⟨node, knownAt, recorded⟩] }

def insertFactIds : Nat → List (MemoryFact × PreparedFact) → IdIndex FactId → Result (IdIndex FactId)
  | _, [], lookup => .ok lookup
  | index, (fact, prepared) :: rest, lookup => do
      throwIf ((lookup.insertHashed fact.id index prepared.idHash).1.isSome)
        (.conflictingFact fact.id.toString)
      insertFactIds (index + 1) rest (lookup.insertHashed fact.id index prepared.idHash).2

def supersedeFacts : List MemoryFact → Update MemoryProjection Unit
  | [] => pure ()
  | fact :: rest => do
      match fact.supersedes with
      | some prior => applySupersession prior fact
      | none => pure ()
      supersedeFacts rest

def tryFromParts (seeds : Seeds) (parallelism : Nat) (nodes : List MemoryNode) (facts : List MemoryFact)
    (knownAt : Timestamp) (sourcePosition : Option UInt64) : Result MemoryProjection := do
  let p ← insertNodes knownAt 0 nodes (.withCapacity seeds)
  let prepared ← prepareFacts parallelism p facts knownAt
  let factLookup ← insertFactIds 0 (facts.zip prepared) p.factLookup
  let p ← runOn (supersedeFacts facts) { p with factLookup }
  let p ← { p with facts }.setIncidents (prepared.map fun (fact : PreparedFact) => (fact.source, fact.target))
  .ok { p with lastGlobalPosition := sourcePosition }

theorem chunks_flatten {α : Type} {size : Nat} (hs : 0 < size) (rounds : Nat) (xs : List α)
    (h : xs.length ≤ rounds) : (chunks size rounds xs).flatten = xs := by
  induction rounds generalizing xs with
  | zero =>
      rw [List.length_eq_zero_iff.mp (Nat.le_zero.mp h)]
      rfl
  | succ rounds ih =>
      cases xs with
      | nil => rfl
      | cons a xs =>
          rw [chunks, List.flatten_cons, ih _ (by rw [List.length_drop]; simp at h ⊢; omega),
            List.take_append_drop]
          nofun

theorem mapM_flatten {α β : Type} (f : α → Result β) (parts : List (List α)) :
    (do let done ← parts.mapM (fun part => part.mapM f); .ok done.flatten : Result (List β)) =
      parts.flatten.mapM f := by
  induction parts with
  | nil => rfl
  | cons part parts ih =>
      rw [List.flatten_cons, List.mapM_append, List.mapM_cons, ← ih]
      cases part.mapM f with
      | error e => rfl
      | ok done =>
          simp only [ok_bind]
          cases parts.mapM (fun part => part.mapM f) <;> rfl

theorem safe_mapM {α β : Type} {f : α → Result β} (hf : ∀ a, Safe (f a)) (xs : List α) :
    Safe (xs.mapM f) := by
  induction xs with
  | nil => exact safe_ok []
  | cons a xs ih =>
      rw [List.mapM_cons]
      exact (hf a).bind fun _ _ => ih.bind fun _ _ => safe_ok _

theorem safe_prepareFact (p : MemoryProjection) (knownAt : Timestamp) (fact : MemoryFact) :
    Safe (prepareFact p knownAt fact) :=
  (safe_throwIf (by nofun)).bind fun _ _ =>
    (safe_validateFact fact).bind fun _ _ =>
      (safe_entityIndex _ _).bind fun _ _ => (safe_entityIndex _ _).bind fun _ _ => safe_ok _

theorem joined_of_safe {α : Type} {x : Result α} (h : Safe x) : joined x = x := by
  unfold joined
  split
  · exact absurd rfl h
  · rfl

/-- Splitting the preparation over workers does not change its result. -/
theorem prepareFacts_eq (parallelism : Nat) (p : MemoryProjection) (facts : List MemoryFact)
    (knownAt : Timestamp) :
    prepareFacts parallelism p facts knownAt = facts.mapM (prepareFact p knownAt) := by
  unfold prepareFacts
  simp only [joined_of_safe (safe_mapM (safe_prepareFact p knownAt) _), mapM_flatten]
  split
  · rfl
  · rename_i hw
    have hpos : 0 < facts.length := by
      refine Nat.pos_of_ne_zero fun h0 => hw ?_
      rw [h0]
      simp [divCeil]
    rw [chunks_flatten _ _ _ le_rfl]
    refine Nat.div_pos ?_ ?_ <;> omega

theorem prepareFact_eq_ok {p : MemoryProjection} {knownAt : Timestamp} {fact : MemoryFact}
    {prepared : PreparedFact} :
    prepareFact p knownAt fact = .ok prepared ↔ fact.recordedAt ≤ knownAt ∧ fact.validate = .ok () ∧
      p.nodeLookup.get fact.source = some prepared.source ∧
      p.nodeLookup.get fact.target = some prepared.target ∧
      prepared.idHash = p.factLookup.hash fact.id := by
  rcases prepared with ⟨source, target, idHash⟩
  simp only [prepareFact, requireEntity, bind_eq_ok, throwIf_eq_ok, not_lt, entityIndex_eq_ok,
    Except.ok.injEq, PreparedFact.mk.injEq]
  constructor
  · rintro ⟨_, hr, _, hv, s, hs, t, ht, rfl, rfl, rfl⟩
    exact ⟨hr, hv, hs, ht, rfl⟩
  · rintro ⟨hr, hv, hs, ht, rfl⟩
    exact ⟨(), hr, (), hv, _, hs, _, ht, rfl, rfl, rfl⟩

theorem mapM_eq_ok {α β : Type} {f : α → Result β} {xs : List α} {ys : List β} :
    xs.mapM f = .ok ys ↔ List.Forall₂ (fun x y => f x = .ok y) xs ys := by
  induction xs generalizing ys with
  | nil =>
      rw [List.mapM_nil, List.forall₂_nil_left_iff]
      change Except.ok [] = Except.ok ys ↔ _
      rw [Except.ok.injEq, eq_comm]
  | cons x xs ih =>
      rw [List.mapM_cons, bind_eq_ok, List.forall₂_cons_left_iff]
      simp only [bind_eq_ok, ih]
      constructor
      · rintro ⟨y, hy, ys', h, he⟩
        cases he
        exact ⟨y, ys', hy, h, rfl⟩
      · rintro ⟨y, ys', hy, h, rfl⟩
        exact ⟨y, hy, ys', h, rfl⟩

structure NodesIn (p : MemoryProjection) : Prop where
  lookup : IndexOf p.nodeLookup (p.nodes.map NodeHistory.id)
  revisions : ∀ history ∈ p.nodes, checkRevisions history.id history.revisions = .ok ()

def numbered (knownAt : Timestamp) : Nat → List MemoryNode → List NodeHistory
  | _, [] => []
  | position, node :: rest =>
      NodeHistory.new ⟨node, knownAt, UInt64.ofNat position⟩ :: numbered knownAt (position + 1) rest

theorem ids_numbered (knownAt : Timestamp) (position : Nat) (nodes : List MemoryNode) :
    (numbered knownAt position nodes).map NodeHistory.id = nodes.map MemoryNode.id := by
  induction nodes generalizing position with
  | nil => rfl
  | cons node rest ih => rw [numbered, List.map_cons, List.map_cons, ih, NodeHistory.new, NodeHistory.id]

theorem insertNodes_holds (knownAt : Timestamp) (position : Nat) (nodes : List MemoryNode)
    {p : MemoryProjection} (hp : NodesIn p) :
    Holds
      (fun q => NodesIn q ∧
        q = { p with nodeLookup := q.nodeLookup, nodes := p.nodes ++ numbered knownAt position nodes })
      (Rejects (position + nodes.length ≤ 2 ^ 64 ∧ (∀ node ∈ nodes, node.validate = .ok ()) ∧
        (p.nodes.map NodeHistory.id ++ nodes.map MemoryNode.id).Nodup))
      (insertNodes knownAt position nodes p) := by
  induction nodes generalizing position p with
  | nil =>
      refine ⟨hp, ?_⟩
      rw [numbered, List.append_nil]
  | cons node rest ih =>
      refine Holds.check ?_ fun _ hv => Holds.check ?_ fun _ hn => Holds.check ?_ fun recorded hr => ?_
      · intro e he
        refine ⟨fun hp => safe_validateNode node (hp ▸ he), fun hc => ?_⟩
        rw [hc.2.1 node List.mem_cons_self] at he
        cases he
      · intro e he
        obtain ⟨hs, rfl⟩ := throwIf_eq_error.mp he
        exact ⟨nofun, fun hc => hp.lookup.repeats hs (rest.map MemoryNode.id) hc.2.2⟩
      · intro e he
        obtain ⟨hlarge, rfl⟩ := u64TryFrom_eq_error.mp he
        refine ⟨nofun, fun hc => ?_⟩
        rw [List.length_cons] at hc
        omega
      · rw [throwIf_eq_ok, hp.lookup.insert_isSome, ← hp.lookup.get_eq_none] at hn
        have hlookup := hp.lookup.insert hn
        rw [List.length_map] at hlookup
        have hposition : recorded = UInt64.ofNat position := by
          rw [← u64TryFrom_eq_ok.mp hr, UInt64.ofNat_toNat]
        subst hposition
        refine (ih (position + 1) ⟨?_, ?_⟩).mono ?_ ?_
        · simp only [List.map_append, List.map_singleton]
          exact hlookup
        · exact List.forall_mem_append.mpr ⟨hp.revisions, List.forall_mem_singleton.mpr
            (checkRevisions_eq_ok.mpr (List.forall_mem_singleton.mpr ⟨hv, rfl⟩))⟩
        · intro q hq
          refine ⟨hq.1, ?_⟩
          simpa only [numbered, List.append_assoc, List.singleton_append] using hq.2
        · intro e he
          refine he.mono fun hc => ⟨?_, fun other ho => hc.2.1 other (List.mem_cons_of_mem _ ho), ?_⟩
          · rw [Nat.add_assoc, Nat.add_comm 1]
            exact hc.1
          · simpa [NodeHistory.new, NodeHistory.id] using hc.2.2

theorem insertHashed_eq_insert (lookup : IdIndex FactId) (id : FactId) (index : Nat) :
    lookup.insertHashed id index (lookup.hash id) = lookup.insert id index := rfl

theorem insertFactIds_holds {hash : FactId → UInt64} (rest : List (MemoryFact × PreparedFact))
    {done : List FactId} {lookup : IdIndex FactId} (h : IndexOf lookup done)
    (hhash : lookup.hash = hash) (hrest : ∀ e ∈ rest, e.2.idHash = hash e.1.id) :
    Holds (fun lookup => IndexOf lookup (done ++ rest.map (fun e => e.1.id)))
      (Rejects (done ++ rest.map (fun e => e.1.id)).Nodup) (insertFactIds done.length rest lookup) := by
  induction rest generalizing done lookup with
  | nil => simpa [insertFactIds, Holds] using h
  | cons e rest ih =>
      rcases e with ⟨fact, prepared⟩
      obtain ⟨he, hrest⟩ := List.forall_mem_cons.mp hrest
      have hi : lookup.insertHashed fact.id done.length prepared.idHash =
          lookup.insert fact.id done.length := by
        rw [show prepared.idHash = hash fact.id from he, ← hhash, insertHashed_eq_insert]
      unfold insertFactIds
      rw [hi]
      refine Holds.check ?_ fun _ hn => ?_
      · intro e he
        obtain ⟨hs, rfl⟩ := throwIf_eq_error.mp he
        exact ⟨by simp, fun hc => h.repeats hs _ hc⟩
      · rw [throwIf_eq_ok, h.insert_isSome, ← h.get_eq_none] at hn
        have hseed : (lookup.insert fact.id done.length).2.hash = hash := by
          rw [← hhash]
          funext id
          unfold IdIndex.hash
          rw [show (lookup.insert fact.id done.length).2.seed = lookup.seed from
            insertHashed_seed lookup _ _ _]
        have hrec := ih (h.insert hn) hseed hrest
        rw [List.length_append, List.length_singleton] at hrec
        simpa only [List.map_cons, List.append_assoc, List.singleton_append] using hrec

theorem applySupersession_eq (prior : FactId) (fact : MemoryFact) (p : MemoryProjection) :
    applySupersession prior fact p =
      guarded (fun _ => { p with
        supersessions := p.supersessions.insert prior ⟨fact.id, fact.validFrom, fact.recordedAt⟩ }) p
        (admitPrior p (some prior)) := by
  unfold applySupersession admitPrior
  rw [bind_apply, get_apply]
  refine bind_guarded fun _ _ => ?_
  rw [bind_apply]
  cases throwIf (p.supersessions.contains prior) (.conflictingFact prior.toString) <;> rfl

theorem supersedeFacts_cons (fact : MemoryFact) (rest : List MemoryFact) (p : MemoryProjection) :
    runOn (supersedeFacts (fact :: rest)) p = (do
      admitPrior p fact.supersedes
      runOn (supersedeFacts rest) { p with supersessions := supersede p.supersessions fact }) := by
  cases hs : fact.supersedes with
  | none =>
      simp only [supersedeFacts, hs, admitPrior, supersede]
      rfl
  | some prior =>
      simp only [runOn, supersedeFacts, hs, bind_apply, applySupersession_eq, supersede]
      cases admitPrior p (some prior) <;> rfl

theorem safe_admitPrior (p : MemoryProjection) (prior : Option FactId) : Safe (admitPrior p prior) := by
  cases prior with
  | none => exact safe_ok ()
  | some prior => exact (safe_throwIf (by nofun)).bind fun _ _ => safe_throwIf (by nofun)

def OtherPrior (fact other : MemoryFact) : Prop :=
  ∀ prior, fact.supersedes = some prior → other.supersedes ≠ some prior

theorem admitPrior_rejects {done : List MemoryFact} {p : MemoryProjection} (h : Records done p.supersessions)
    {fact : MemoryFact} {e : MemoryError} (he : admitPrior p fact.supersedes = .error e) :
    Rejects ((∀ prior, fact.supersedes = some prior → p.factLookup.get prior ≠ none) ∧
      ∀ other ∈ done, OtherPrior other fact) e := by
  refine ⟨fun hp => safe_admitPrior p fact.supersedes (hp ▸ he), fun hc => ?_⟩
  have hok : admitPrior p fact.supersedes = .ok () := by
    apply admitPrior_eq_ok.mpr
    intro prior hs
    refine ⟨hc.1 prior hs, Option.eq_none_iff_forall_ne_some.mpr fun change hchange => ?_⟩
    obtain ⟨other, ho, hprior, -⟩ := (h prior change).mp hchange
    exact hc.2 other ho prior hprior hs
  rw [hok] at he
  cases he

theorem supersedeFacts_holds (rest : List MemoryFact) {done : List MemoryFact} {p : MemoryProjection}
    (h : Records done p.supersessions) :
    Holds
      (fun q => ∃ supersessions, q = { p with supersessions } ∧ Records (done ++ rest) supersessions ∧
        ∀ fact ∈ rest, ∀ prior, fact.supersedes = some prior → p.factLookup.get prior ≠ none)
      (Rejects ((∀ fact ∈ rest, ∀ prior, fact.supersedes = some prior → p.factLookup.get prior ≠ none) ∧
        (done ++ rest).Pairwise OtherPrior))
      (runOn (supersedeFacts rest) p) := by
  induction rest generalizing done p with
  | nil => exact ⟨p.supersessions, rfl, by rwa [List.append_nil], fun _ h => absurd h List.not_mem_nil⟩
  | cons fact rest ih =>
      rw [supersedeFacts_cons]
      refine Holds.check ?_ fun _ ha => ?_
      · intro e he
        refine (admitPrior_rejects h he).mono fun hc => ⟨hc.1 fact List.mem_cons_self, fun other ho => ?_⟩
        exact (List.pairwise_append.mp hc.2).2.2 other ho fact List.mem_cons_self
      · rw [admitPrior_eq_ok] at ha
        have hrec := @ih _ { p with supersessions := supersede p.supersessions fact }
          (h.supersede fun prior hs => (ha prior hs).2)
        refine hrec.mono ?_ ?_
        · rintro q ⟨supersessions, rfl, hr, hk⟩
          refine ⟨supersessions, rfl, ?_, List.forall_mem_cons.mpr ⟨fun prior hs => (ha prior hs).1, hk⟩⟩
          simpa using hr
        · intro e he
          refine he.mono fun hc => ⟨fun other ho => hc.1 other (List.mem_cons_of_mem _ ho), ?_⟩
          rw [List.append_assoc, List.singleton_append]
          exact hc.2

/-- What a successful construction from parts guarantees, and that it never fails on an index. -/
structure Built (seeds : Seeds) (nodes : List MemoryNode) (facts : List MemoryFact) (knownAt : Timestamp)
    (p : MemoryProjection) : Prop where
  valid : Valid p
  inserted : ∃ q, insertNodes knownAt 0 nodes (.withCapacity seeds) = .ok q ∧ NodesIn q ∧
    (∃ added, q = { MemoryProjection.withCapacity seeds with nodeLookup := q.nodeLookup, nodes := added }) ∧
    p.nodeLookup = q.nodeLookup
  nodes_eq : p.nodes = numbered knownAt 0 nodes
  facts_eq : p.facts = facts
  retractions_eq : p.retractions = ∅
  recorded : ∀ fact ∈ facts, fact.recordedAt ≤ knownAt
  records : Records facts p.supersessions
  priors : ∀ fact ∈ facts, ∀ prior, fact.supersedes = some prior → prior ∈ facts.map MemoryFact.id

structure Constructible (nodes : List MemoryNode) (facts : List MemoryFact) (knownAt : Timestamp) : Prop where
  nodesValid : ∀ node ∈ nodes, node.validate = .ok ()
  nodeIds : (nodes.map MemoryNode.id).Nodup
  recorded : ∀ fact ∈ facts, fact.recordedAt ≤ knownAt
  factsValid : ∀ fact ∈ facts, fact.validate = .ok ()
  endpoints : ∀ fact ∈ facts, fact.source ∈ nodes.map MemoryNode.id ∧ fact.target ∈ nodes.map MemoryNode.id
  factIds : (facts.map MemoryFact.id).Nodup
  priors : ∀ fact ∈ facts, ∀ prior, fact.supersedes = some prior → prior ∈ facts.map MemoryFact.id
  replacements : facts.Pairwise OtherPrior

theorem mapM_eq_error {α β : Type} {f : α → Result β} {xs : List α} {e : MemoryError}
    (h : xs.mapM f = .error e) : ∃ x ∈ xs, f x = .error e := by
  induction xs with
  | nil => cases h
  | cons x xs ih =>
      rw [List.mapM_cons] at h
      obtain hx | ⟨y, -, h⟩ := bind_eq_error.mp h
      · exact ⟨x, List.mem_cons_self, hx⟩
      · obtain h | ⟨ys, -, h⟩ := bind_eq_error.mp h
        · obtain ⟨x', hx', he⟩ := ih h
          exact ⟨x', List.mem_cons_of_mem _ hx', he⟩
        · cases h

theorem mem_nodes {p : MemoryProjection} (hp : NodesIn p) {id : EntityId} {i : Nat}
    (hi : p.nodeLookup.get id = some i) : i < p.nodes.length ∧ id ∈ p.nodes.map NodeHistory.id := by
  have hget := (hp.lookup id i).mp hi
  refine ⟨?_, List.mem_of_getElem? hget⟩
  rw [← List.length_map]
  exact (List.getElem?_eq_some_iff.mp hget).1

theorem zip_ids {r : MemoryFact → PreparedFact → Prop} {facts : List MemoryFact}
    {prepared : List PreparedFact} (h : List.Forall₂ r facts prepared) :
    (facts.zip prepared).map (fun e => e.1.id) = facts.map MemoryFact.id := by
  induction h with
  | nil => rfl
  | cons _ _ ih => simp [ih]

theorem prepareFact_rejects {p : MemoryProjection} {knownAt : Timestamp} {fact : MemoryFact} {e : MemoryError}
    (he : prepareFact p knownAt fact = .error e) :
    Rejects (fact.recordedAt ≤ knownAt ∧ fact.validate = .ok () ∧ p.nodeLookup.get fact.source ≠ none ∧
      p.nodeLookup.get fact.target ≠ none) e := by
  refine ⟨fun hp => safe_prepareFact p knownAt fact (hp ▸ he), fun hc => ?_⟩
  obtain ⟨hr, hv, hs, ht⟩ := hc
  obtain ⟨source, hs⟩ := Option.ne_none_iff_exists'.mp hs
  obtain ⟨target, ht⟩ := Option.ne_none_iff_exists'.mp ht
  have hok : prepareFact p knownAt fact = .ok ⟨source, target, p.factLookup.hash fact.id⟩ :=
    prepareFact_eq_ok.mpr ⟨hr, hv, hs, ht, rfl⟩
  rw [hok] at he
  cases he

/-- Construction from parts succeeds on parts that are in order, and nowhere else, short of a count
that leaves the machine word. -/
theorem tryFromParts_holds (seeds : Seeds) (parallelism : Nat) (nodes : List MemoryNode)
    (facts : List MemoryFact) (knownAt : Timestamp) (sourcePosition : Option UInt64) :
    Holds (Built seeds nodes facts knownAt)
      (Rejects (nodes.length ≤ 2 ^ 64 ∧ 2 * facts.length < 2 ^ 64 ∧ Constructible nodes facts knownAt))
      (tryFromParts seeds parallelism nodes facts knownAt sourcePosition) := by
  have hempty : NodesIn (MemoryProjection.withCapacity seeds) :=
    ⟨indexOf_withSeed _, fun _ h => absurd h List.not_mem_nil⟩
  rw [tryFromParts]
  have hinsertNodes := insertNodes_holds knownAt 0 nodes hempty
  refine Holds.check (fun e he => ?_) fun q hinserted => ?_
  · refine (hinsertNodes.of_error he).mono fun hc => ⟨?_, hc.2.2.nodesValid, hc.2.2.nodeIds⟩
    rw [Nat.zero_add]
    exact hc.1
  obtain ⟨hnodes, hq⟩ := hinsertNodes.of_ok hinserted
  have hadded : q.nodes = numbered knownAt 0 nodes := by rw [hq]; rfl
  have hlookup : q.factLookup = IdIndex.withSeed seeds.facts := by rw [hq]; rfl
  have hsuper : q.supersessions = ∅ := by rw [hq]; rfl
  have hretract : q.retractions = ∅ := by rw [hq]; rfl
  have hfound : ∀ id ∈ nodes.map MemoryNode.id, q.nodeLookup.get id ≠ none := by
    intro id hid
    rw [ne_eq, hnodes.lookup.get_eq_none, hadded, ids_numbered, not_not]
    exact hid
  rw [prepareFacts_eq]
  refine Holds.check (fun e he => ?_) fun prepared hp => ?_
  · obtain ⟨fact, hf, he⟩ := mapM_eq_error he
    refine (prepareFact_rejects he).mono fun hc => ?_
    obtain ⟨hs, ht⟩ := hc.2.2.endpoints fact hf
    exact ⟨hc.2.2.recorded fact hf, hc.2.2.factsValid fact hf, hfound _ hs, hfound _ ht⟩
  rw [mapM_eq_ok] at hp
  simp only [prepareFact_eq_ok] at hp
  have hends : EndpointsOf q.nodeLookup facts
      (prepared.map fun (fact : PreparedFact) => (fact.source, fact.target)) := by
    refine List.forall₂_map_right_iff.mpr (hp.imp ?_)
    rintro fact made ⟨-, -, hs, ht, -⟩
    exact ⟨hs, ht⟩
  have hhash : ∀ e ∈ facts.zip prepared, e.2.idHash = q.factLookup.hash e.1.id := by
    intro e he
    exact (List.forall₂_iff_zip.mp hp).2 he |>.2.2.2.2
  have hindex : IndexOf q.factLookup [] := by
    rw [hlookup]
    exact indexOf_withSeed _
  have hinsert := insertFactIds_holds (facts.zip prepared) hindex rfl hhash
  rw [zip_ids hp, List.nil_append, List.length_nil] at hinsert
  refine (hinsert.mono (fun _ h => h) fun e he => he.mono fun hc => hc.2.2.factIds).bind fun factLookup hf => ?_
  have hnil : Records [] { q with factLookup }.supersessions := by
    rw [hsuper]
    exact Records.nil
  refine ((supersedeFacts_holds facts hnil).mono (fun _ h => h) fun e he => he.mono fun hc => ⟨?_, ?_⟩).bind ?_
  · intro fact hm prior hs
    rw [ne_eq, hf.get_eq_none, not_not]
    exact hc.2.2.priors fact hm prior hs
  · exact hc.2.2.replacements
  rintro _ ⟨supersessions, rfl, hrecords, hpriors⟩
  rw [List.nil_append] at hrecords
  have hlt : ∀ e ∈ prepared.map (fun (fact : PreparedFact) => (fact.source, fact.target)),
      e.1 < q.nodes.length ∧ e.2 < q.nodes.length := by
    intro e he
    obtain ⟨_, _, hs, ht⟩ := hends.mem e he
    exact ⟨(mem_nodes hnodes hs).1, (mem_nodes hnodes ht).1⟩
  refine ((setIncidents_holds { q with factLookup, supersessions, facts } _ hlt).mono (fun _ h => h) ?_).bind ?_
  · rintro e ⟨rfl, hsmall⟩
    refine ⟨nofun, fun hc => hsmall ?_⟩
    rw [← hends.length_eq]
    exact hc.2.1
  rintro _ ⟨offsets, incidents, hrows, rfl⟩
  have hindexed := @Rows.indexed { q with factLookup, supersessions, facts } _ _ _ hnodes.lookup hf hends hrows
  have hknown : ∀ fact ∈ facts, ∀ prior, fact.supersedes = some prior → prior ∈ facts.map MemoryFact.id := by
    intro fact hm prior hs
    have hget := hpriors fact hm prior hs
    rwa [ne_eq, hf.get_eq_none, not_not] at hget
  refine ⟨⟨⟨hnodes.lookup.nodup, hnodes.revisions, hf.nodup, ?_, ?_, ?_, ?_⟩, { hindexed with }⟩,
    ⟨q, hinserted, hnodes, ⟨_, hq⟩, rfl⟩, hadded, rfl, hretract, ?_, hrecords, hknown⟩
  · intro fact hm
    obtain ⟨_, _, _, hv, _⟩ := Pairings.exists_right hp fact hm
    exact hv
  · intro fact hm
    obtain ⟨_, _, _, _, hs, ht, _⟩ := Pairings.exists_right hp fact hm
    exact ⟨(mem_nodes hnodes hs).2, (mem_nodes hnodes ht).2⟩
  · intro prior change hc
    obtain ⟨fact, hm, hs, rfl⟩ := (hrecords prior change).mp hc
    exact ⟨hknown fact hm prior hs, fact, hm, rfl, hs, rfl, rfl⟩
  · intro id change hc
    simp only [MemoryProjection.data, hretract] at hc
    simp at hc
  · intro fact hm
    obtain ⟨_, _, hr, _⟩ := Pairings.exists_right hp fact hm
    exact hr

end WeavatrixMemory.Projection.Parts
