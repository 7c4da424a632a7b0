import WeavatrixMemory.Common
import WeavatrixMemory.GraphProjection
import WeavatrixMemory.Library.Groups
import WeavatrixMemory.Library.Sorting
import WeavatrixMemory.Projection.Replay
import WeavatrixMemory.Projection.Views

namespace WeavatrixMemory.Analytics.Timeline

open Error Identity Domain Sorting Groups GraphProjection
open Projection.State Projection.Memory Projection.Admission Projection.Invariant Projection.Replay

def timeOrder (left right : MemoryFact) : Ordering :=
  (compare left.recordedAt right.recordedAt).then (compare left.id right.id)

def timeline (facts : List MemoryFact) : List MemoryFact :=
  facts.mergeSort fun left right => (timeOrder left right).isLE

structure ChainKey where
  source : EntityId
  relation : Text
deriving DecidableEq

def chainOf (fact : MemoryFact) : ChainKey := ⟨fact.source, fact.relation⟩

instance : Ord ChainKey := ⟨compareLex (compareOn ChainKey.source) (compareOn ChainKey.relation)⟩

instance : Std.TransOrd ChainKey :=
  inferInstanceAs (Std.TransCmp (compareLex (compareOn ChainKey.source) (compareOn ChainKey.relation)))

instance : Std.LawfulEqOrd ChainKey where
  eq_of_compare {a b} h := by
    obtain ⟨hsource, hrelation⟩ := Ordering.then_eq_eq.mp h
    cases a
    cases b
    rw [ChainKey.mk.injEq]
    exact ⟨Std.LawfulEqOrd.eq_of_compare hsource, Std.LawfulEqOrd.eq_of_compare hrelation⟩

def knownFacts (p : MemoryProjection) (knownAt : Timestamp) : List MemoryFact :=
  p.facts.filter fun fact => fact.recordedAt ≤ knownAt

/-- The known facts of a source and a relation, in the order in which they were recorded. -/
def chain (p : MemoryProjection) (knownAt : Timestamp) (key : ChainKey) : List MemoryFact :=
  (knownFacts p knownAt).filter fun fact => chainOf fact = key

def superseding (facts : List MemoryFact) : Nat := (facts.filter fun fact => fact.supersedes.isSome).length

instance transTimeOrder : Std.TransCmp timeOrder :=
  inferInstanceAs (Std.TransCmp (compareLex (compareOn MemoryFact.recordedAt) (compareOn MemoryFact.id)))

variable {p : MemoryProjection} {knownAt : Timestamp} {key : ChainKey} {facts : List MemoryFact}
  {fact other : MemoryFact}

theorem id_of_timeOrder (h : timeOrder fact other = .eq) : fact.id = other.id :=
  Std.LawfulEqOrd.eq_of_compare (Ordering.then_eq_eq.mp h).2

theorem timeline_perm (facts : List MemoryFact) : (timeline facts).Perm facts := List.mergeSort_perm _ _

theorem mem_timeline : fact ∈ timeline facts ↔ fact ∈ facts := (timeline_perm facts).mem_iff

theorem mem_chain : fact ∈ chain p knownAt key ↔ fact ∈ p.facts ∧ fact.recordedAt ≤ knownAt ∧ chainOf fact = key := by
  simp only [chain, knownFacts, List.mem_filter, decide_eq_true_eq, and_assoc]

theorem pairwise_timeline (facts : List MemoryFact) :
    (timeline facts).Pairwise fun left right => (timeOrder left right).isLE = true := pairwise_sort timeOrder facts

def Distinct (facts : List MemoryFact) : Prop := (facts.map MemoryFact.id).Nodup

theorem Distinct.eq (h : Distinct facts) (hf : fact ∈ facts) (ho : other ∈ facts) (hid : fact.id = other.id) :
    fact = other := List.inj_on_of_nodup_map h hf ho hid

theorem Distinct.timeline (h : Distinct facts) : Distinct (timeline facts) :=
  ((timeline_perm facts).map MemoryFact.id).nodup_iff.mpr h

theorem distinct_filter (hp : Valid p) (P : MemoryFact → Bool) : Distinct (p.facts.filter P) :=
  (List.filter_sublist.map MemoryFact.id).nodup hp.sound.factIds

theorem exists_last (h : facts ≠ []) : ∃ last, (timeline facts).getLast? = some last := by
  cases hlast : (timeline facts).getLast? with
  | some last => exact ⟨last, rfl⟩
  | none =>
      have hperm := timeline_perm facts
      rw [List.getLast?_eq_none_iff.mp hlast] at hperm
      exact absurd hperm.nil_eq.symm h

theorem later_iff_ne_last {last : MemoryFact} (h : Distinct facts)
    (hlast : (timeline facts).getLast? = some last) (hf : fact ∈ facts) :
    (∃ later ∈ facts, timeOrder fact later = .lt) ↔ fact ≠ last := by
  obtain ⟨hmem, hgreatest⟩ := getLast?_sort hlast
  constructor
  · rintro ⟨later, hlater, hlt⟩ rfl
    have hle := hgreatest later hlater
    have hswap : timeOrder later fact = (timeOrder fact later).swap := Std.OrientedCmp.eq_swap
    rw [hswap, hlt] at hle
    cases hle
  · intro hne
    refine ⟨last, hmem, ?_⟩
    have hle := hgreatest fact hf
    cases hcmp : timeOrder fact last with
    | lt => rfl
    | eq => exact absurd (h.eq hf hmem (id_of_timeOrder hcmp)) hne
    | gt => simp [hcmp] at hle

theorem distinct_chain (hp : Valid p) (knownAt : Timestamp) (key : ChainKey) : Distinct (chain p knownAt key) := by
  rw [chain, knownFacts, List.filter_filter]
  exact distinct_filter hp _

theorem mem_before_iff {before after : List MemoryFact} (h : Distinct facts)
    (hsplit : timeline facts = before ++ fact :: after) :
    other ∈ before ↔ other ∈ facts ∧ timeOrder other fact = .lt := by
  have hsorted := pairwise_timeline facts
  have hdistinct := h.timeline
  rw [hsplit] at hsorted hdistinct
  obtain ⟨-, hafter, hbefore⟩ := List.pairwise_append.mp hsorted
  rw [Distinct, List.map_append, List.map_cons, List.nodup_append] at hdistinct
  constructor
  · intro ho
    have hmem : other ∈ facts := by
      apply mem_timeline.mp
      rw [hsplit]
      exact List.mem_append_left _ ho
    have hne := hdistinct.2.2 other.id (List.mem_map_of_mem ho) fact.id List.mem_cons_self
    have hle := hbefore other ho fact List.mem_cons_self
    refine ⟨hmem, ?_⟩
    cases hcmp : timeOrder other fact with
    | lt => rfl
    | eq => exact absurd (id_of_timeOrder hcmp) hne
    | gt => simp [hcmp] at hle
  · rintro ⟨hmem, hlt⟩
    rw [← mem_timeline, hsplit, List.mem_append] at hmem
    obtain hmem | hmem := hmem
    · exact hmem
    · have hle : (timeOrder fact other).isLE = true := by
        obtain rfl | hmem := List.mem_cons.mp hmem
        · exact isLE_refl _
        · exact (List.pairwise_cons.mp hafter).1 other hmem
      have hswap : timeOrder fact other = (timeOrder other fact).swap := Std.OrientedCmp.eq_swap
      rw [hswap, hlt] at hle
      cases hle

theorem valid_of_replay {seeds : Seeds} {events : List (StoredEvent MemoryEvent)}
    (h : replay (memory seeds) events = .ok p) : Valid p := by
  obtain ⟨⟨q, cursor⟩, htracked, rfl⟩ := map_eq_ok.mp h
  refine @applyLoop_run _ _ _ true (fun _ p _ => Valid p) (fun _ event p q _ hp hq => ?_) events [] [] _ _ _ _
    (valid_default seeds) htracked
  obtain ⟨change, -, ha, rfl⟩ := apply_eq_ok.mp hq
  exact hp.applied ha

def logOf (nodes : List MemoryNode) (facts : List MemoryFact) : List (StoredEvent MemoryEvent) :=
  (nodes.map (fun node => Common.event ⟨node.id.text, node.id.trimmed⟩ (Common.ts 1) (.nodeUpserted node)) ++
    facts.map fun fact => Common.event ⟨fact.id.text, fact.id.trimmed⟩ fact.recordedAt (.factRecorded fact)).zipIdx.map
    fun entry => Common.stored (UInt64.ofNat entry.2) entry.1

/-- A projection of two nodes and the facts. -/
def replayed (facts : List MemoryFact) : Result MemoryProjection :=
  replay (memory ⟨1, 2⟩) (logOf [Common.node Common.task, Common.node Common.file] facts)

theorem exists_replayed (h : (replayed facts).map MemoryProjection.facts = .ok facts) :
    ∃ p, replayed facts = .ok p ∧ p.facts = facts ∧ Valid p := by
  obtain ⟨p, hp, hfacts⟩ := map_eq_ok.mp h
  exact ⟨p, hp, hfacts, valid_of_replay hp⟩

def factThree : FactId := ⟨⟨"fact:3", by decide⟩, by decide⟩

def factFour : FactId := ⟨⟨"fact:4", by decide⟩, by decide⟩

def taskAffects : ChainKey := chainOf (Common.fact Common.factOne (Common.ts 10) (Common.ts 20) none)

/-- A fact and three corrections, all recorded at once. -/
def atOnce : List MemoryFact :=
  [Common.fact factFour (Common.ts 10) (Common.ts 20) none,
    Common.fact factThree (Common.ts 10) (Common.ts 20) (some factFour),
    Common.fact Common.factTwo (Common.ts 10) (Common.ts 20) (some factThree),
    Common.fact Common.factOne (Common.ts 10) (Common.ts 20) (some Common.factTwo)]

/-- A fact and three corrections, one after the other. -/
def inTurn : List MemoryFact :=
  [Common.fact Common.factOne (Common.ts 10) (Common.ts 20) none,
    Common.fact Common.factTwo (Common.ts 10) (Common.ts 30) (some Common.factOne),
    Common.fact factThree (Common.ts 10) (Common.ts 40) (some Common.factTwo),
    Common.fact factFour (Common.ts 10) (Common.ts 50) (some factThree)]

/-- A graph crate that keeps the identifiers of the nodes and the endpoints of the edges. -/
def listCrate : GraphCrate where
  NodeKind := String
  EdgeKind := String
  EvidenceKind := String
  NodeId := Text
  Node := Text
  Provenance := Unit
  Edge := Text × Text
  Graph := List Text × List (Text × Text)
  nodeKind kind := .ok kind
  edgeKind kind := .ok kind
  evidenceKind kind := .ok kind
  newNode id _ _ := if h : id.utf8ByteSize < 2 ^ 63 then .ok ⟨id, h⟩ else .error "identifier is too long"
  nodeId made := made
  nodeAttribute made _ _ := made
  newProvenance _ _ _ := .ok ()
  withDetail provenance _ := provenance
  newEdge source target _ _ := (source, target)
  edgeAttribute edge _ _ := edge
  tryFromSortedNodes nodes edges := .ok (nodes, edges)

structure Example (facts : List MemoryFact) (p : MemoryProjection) (graph : listCrate.Graph) : Prop where
  replayed : replayed facts = .ok p
  facts : p.facts = facts
  valid : Valid p
  projected : projectGraph listCrate (view p ⟨Common.ts 60, Common.ts 60⟩) = .ok graph

theorem exists_example (h : (replayed facts).map MemoryProjection.facts = .ok facts)
    (hgraph : (do
      let p ← replayed facts
      projectGraph listCrate (view p ⟨Common.ts 60, Common.ts 60⟩)).isOk = true) :
    ∃ p graph, Example facts p graph := by
  obtain ⟨p, hp, hfacts, hvalid⟩ := exists_replayed h
  obtain ⟨graph, hgraph⟩ := exists_ok_of_isOk hgraph
  rw [hp, ok_bind] at hgraph
  exact ⟨p, graph, hp, hfacts, hvalid, hgraph⟩

theorem Example.view_facts {graph : listCrate.Graph} {active : List MemoryFact} (h : Example facts p graph)
    (hactive : ((Timeline.replayed facts).map fun p => (view p ⟨Common.ts 60, Common.ts 60⟩).facts) = .ok active) :
    (view p ⟨Common.ts 60, Common.ts 60⟩).facts = active := by
  rw [h.replayed] at hactive
  exact Except.ok.inj hactive

theorem exists_atOnce : ∃ p graph, Example atOnce p graph := exists_example (by decide +kernel) (by decide +kernel)

theorem exists_inTurn : ∃ p graph, Example inTurn p graph := exists_example (by decide +kernel) (by decide +kernel)

end WeavatrixMemory.Analytics.Timeline
