import WeavatrixMemory.Library.Latest
import WeavatrixMemory.Projection.Bulk

namespace WeavatrixMemory.Projection.Revisions

open Error Identity Domain Index State Memory Admission Invariant History Replay Parts Outcome Latest

structure Write where
  node : MemoryNode
  recordedAt : Timestamp
deriving DecidableEq

def NodeRevision.write (revision : NodeRevision) : Write := ⟨revision.node, revision.recordedAt⟩

/-- Of the writes to an entity that are recorded by the time, the last one of those recorded latest. -/
def lastWritten (writes : List Write) (id : EntityId) (knownAt : Timestamp) : Option MemoryNode :=
  (newest Write.recordedAt (writes.filter fun write => write.node.id = id ∧ write.recordedAt ≤ knownAt)).map (·.node)

def revisionOf (id : EntityId) (event : StoredEvent MemoryEvent) : Option NodeRevision :=
  match event.payload with
  | .nodeUpserted node =>
      if node.id = id then some ⟨node, event.metadata.recordedAt, event.metadata.globalPosition⟩ else none
  | _ => none

def revisionsOf (events : List (StoredEvent MemoryEvent)) (id : EntityId) : List NodeRevision :=
  events.filterMap (revisionOf id)

def writeOf (event : StoredEvent MemoryEvent) : Option Write :=
  match event.payload with
  | .nodeUpserted node => some ⟨node, event.metadata.recordedAt⟩
  | _ => none

def writesOf (events : List (StoredEvent MemoryEvent)) : List Write := events.filterMap writeOf

/-- The events are accepted one after the other, at the positions that follow the projection's. -/
def Continued : MemoryProjection → List (StoredEvent MemoryEvent) → MemoryProjection → Prop
  | p, [], q => q = p
  | p, event :: rest, q => following p.lastGlobalPosition = .ok event.metadata.globalPosition ∧
      ∃ next, (apply event p = .ok () next ∨ applyOwned event p = .ok () next) ∧ Continued next rest q

/-- No listed node is written again at the time of the list, for the last time, with another content and
at a position below its place in the list. -/
def KeepsOrder (nodes : List MemoryNode) (knownAt : Timestamp) (events : List (StoredEvent MemoryEvent)) : Prop :=
  ∀ (i : Nat) (node : MemoryNode), nodes[i]? = some node → ∀ revision,
    ((revisionsOf events node.id).filter fun revision => revision.recordedAt = knownAt).getLast? = some revision →
      i ≤ revision.position.toNat ∨ revision.node = node

def visibleOf (revisions : List NodeRevision) (knownAt : Timestamp) : Option MemoryNode :=
  (maxBy keyLe (revisions.filter fun revision => revision.recordedAt ≤ knownAt)).map (·.node)

def revisionsIn (p : MemoryProjection) (id : EntityId) : List NodeRevision :=
  ((p.nodes.find? fun history => history.id = id).map NodeHistory.revisions).getD []

theorem maxBy_lastMax {α : Type} {le : α → α → Bool} (total : ∀ a b, le a b = true ∨ le b a = true)
    (trans : ∀ a b c, le a b = true → le b c = true → le a c = true) {xs : List α} {a : α}
    (h : maxBy le xs = some a) : LastMax (fun x y => le x y = true) xs a := by
  have hfold : ∀ (rest done : List α) (best : α), LastMax (fun x y => le x y = true) done best →
      LastMax (fun x y => le x y = true) (done ++ rest)
        (rest.foldl (fun best b => if le best b then b else best) best) := by
    intro rest
    induction rest with
    | nil =>
        intro done best hbest
        rwa [List.append_nil]
    | cons b rest ih =>
        intro done best hbest
        have hnext := ih (done ++ [b]) _ (hbest.snoc total trans b)
        rwa [List.append_assoc, List.singleton_append] at hnext
  cases xs with
  | nil => cases h
  | cons x xs =>
      rw [maxBy, Option.some.injEq] at h
      subst h
      exact hfold xs [x] x (lastMax_singleton x)

theorem exists_lastMax {α τ : Type} [LinearOrder τ] (key : α → τ) {xs : List α} (h : xs ≠ []) :
    ∃ a, LastMax (fun x y => key x ≤ key y) xs a := by
  obtain ⟨x, rest, rfl⟩ := List.exists_cons_of_ne_nil h
  have hmax := @maxBy_lastMax α (fun x y => decide (key x ≤ key y)) (fun a b => by simpa using le_total (key a) (key b))
    (fun a b c hab hbc => decide_eq_true (le_trans (of_decide_eq_true hab) (of_decide_eq_true hbc))) (x :: rest) _ rfl
  simp only [decide_eq_true_eq] at hmax
  exact ⟨_, hmax⟩

theorem keyLe_iff {a b : NodeRevision} : keyLe a b = true ↔
    a.recordedAt < b.recordedAt ∨ a.recordedAt = b.recordedAt ∧ a.position.toNat ≤ b.position.toNat := by
  simp [keyLe, UInt64.le_iff_toNat_le]

theorem keyLe_total (a b : NodeRevision) : keyLe a b = true ∨ keyLe b a = true := by
  rw [keyLe_iff, keyLe_iff]
  obtain h | h | h := lt_trichotomy a.recordedAt b.recordedAt
  · exact .inl (.inl h)
  · obtain hle | hle := Nat.le_total a.position.toNat b.position.toNat
    · exact .inl (.inr ⟨h, hle⟩)
    · exact .inr (.inr ⟨h.symm, hle⟩)
  · exact .inr (.inl h)

theorem keyLe_trans (a b c : NodeRevision) (hab : keyLe a b = true) (hbc : keyLe b c = true) : keyLe a c = true := by
  rw [keyLe_iff] at hab hbc ⊢
  obtain hab | ⟨hab, hle⟩ := hab
  · obtain hbc | ⟨hbc, -⟩ := hbc
    · exact .inl (hab.trans hbc)
    · exact .inl (hbc ▸ hab)
  · obtain hbc | ⟨hbc, hle'⟩ := hbc
    · exact .inl (hab ▸ hbc)
    · exact .inr ⟨hab.trans hbc, hle.trans hle'⟩

theorem visibleOf_of_lastMax {revisions : List NodeRevision} {knownAt : Timestamp} {revision : NodeRevision}
    (h : LastMax (fun x y => keyLe x y = true)
      (revisions.filter fun revision => revision.recordedAt ≤ knownAt) revision) :
    visibleOf revisions knownAt = some revision.node := by
  rw [visibleOf]
  cases hm : maxBy keyLe (revisions.filter fun revision => revision.recordedAt ≤ knownAt) with
  | none =>
      rw [maxBy_eq_none] at hm
      rw [hm] at h
      exact absurd h.mem List.not_mem_nil
  | some other =>
      obtain rfl := (maxBy_lastMax keyLe_total keyLe_trans hm).unique h
      rfl

def newestOf (revisions : List NodeRevision) (knownAt : Timestamp) : Option MemoryNode :=
  (newest NodeRevision.recordedAt (revisions.filter fun revision => revision.recordedAt ≤ knownAt)).map (·.node)

theorem newestOf_of_lastMax {revisions : List NodeRevision} {knownAt : Timestamp} {revision : NodeRevision}
    (h : LastMax (fun x y : NodeRevision => x.recordedAt ≤ y.recordedAt)
      (revisions.filter fun revision => revision.recordedAt ≤ knownAt) revision) :
    newestOf revisions knownAt = some revision.node := by
  rw [newestOf, newest_iff.mpr h]
  rfl

def Before (a b : NodeRevision) : Prop := a.position.toNat < b.position.toNat

theorem visibleOf_eq_newestOf {revisions : List NodeRevision} (h : revisions.Pairwise Before) (knownAt : Timestamp) :
    visibleOf revisions knownAt = newestOf revisions knownAt := by
  by_cases hnil : revisions.filter (fun revision => revision.recordedAt ≤ knownAt) = []
  · rw [visibleOf, newestOf, hnil]
    rfl
  · obtain ⟨revision, hmax⟩ := exists_lastMax NodeRevision.recordedAt hnil
    rw [newestOf_of_lastMax hmax]
    refine visibleOf_of_lastMax (hmax.refine (h.filter _) (fun x y hle hlt => ?_) fun x y hle => ?_)
    · rw [keyLe_iff]
      obtain hle | heq := lt_or_eq_of_le hle
      · exact .inl hle
      · exact .inr ⟨heq, Nat.le_of_lt hlt⟩
    · obtain hlt | ⟨heq, -⟩ := keyLe_iff.mp hle
      · exact le_of_lt hlt
      · exact le_of_eq heq

/-- A first revision at any position is not in the way of the last one that was recorded with it. -/
def Settled (first : NodeRevision) (later : List NodeRevision) : Prop :=
  ∀ revision, (later.filter fun revision => revision.recordedAt = first.recordedAt).getLast? = some revision →
    first.position.toNat ≤ revision.position.toNat ∨ revision.node = first.node

/-- A revision that is the last of the latest, behind a first one. -/
structure Behind (first : NodeRevision) (before : List NodeRevision) (last : NodeRevision) (after : List NodeRevision) :
    Prop where
  rising : (before ++ last :: after).Pairwise Before
  first_le : first.recordedAt ≤ last.recordedAt
  before_le : ∀ revision ∈ before, revision.recordedAt ≤ last.recordedAt
  after_lt : ∀ revision ∈ after, revision.recordedAt < last.recordedAt

variable {first last : NodeRevision} {before after later : List NodeRevision}

theorem Behind.keyLe_before (h : Behind first before last after) : ∀ revision ∈ before, keyLe revision last = true := by
  intro revision hr
  obtain ⟨-, -, hcross⟩ := List.pairwise_append.mp h.rising
  rw [keyLe_iff]
  obtain hlt | heq := lt_or_eq_of_le (h.before_le revision hr)
  · exact .inl hlt
  · exact .inr ⟨heq, Nat.le_of_lt (hcross revision hr last List.mem_cons_self)⟩

theorem Behind.not_keyLe_after (h : Behind first before last after) :
    ∀ revision ∈ after, ¬ keyLe last revision = true := by
  intro revision hr hle
  obtain hlt | ⟨heq, -⟩ := keyLe_iff.mp hle
  · exact lt_asymm hlt (h.after_lt revision hr)
  · exact (h.after_lt revision hr).ne heq.symm

/-- The one behind is shown, unless the first was recorded with it at a higher position. -/
theorem Behind.lastMax (h : Behind first before last after)
    (hfirst : first.recordedAt = last.recordedAt → first.position.toNat ≤ last.position.toNat) :
    LastMax (fun x y => keyLe x y = true) (first :: (before ++ last :: after)) last := by
  have hle : keyLe first last = true := by
    rw [keyLe_iff]
    obtain hlt | heq := lt_or_eq_of_le h.first_le
    · exact .inl hlt
    · exact .inr ⟨heq, hfirst heq⟩
  exact ⟨first :: before, after, rfl, List.forall_mem_cons.mpr ⟨hle, h.keyLe_before⟩, h.not_keyLe_after⟩

theorem Behind.lastMax_first (h : Behind first before last after) (heq : first.recordedAt = last.recordedAt)
    (hlt : last.position.toNat < first.position.toNat) :
    LastMax (fun x y => keyLe x y = true) (first :: (before ++ last :: after)) first := by
  refine ⟨[], before ++ last :: after, rfl, fun _ h => absurd h List.not_mem_nil, fun revision hr hle => ?_⟩
  have hshort : ∀ {revision : NodeRevision}, revision.position.toNat ≤ last.position.toNat →
      revision.recordedAt ≤ last.recordedAt → ¬ keyLe first revision = true := by
    intro revision hposition hrecorded hle
    obtain hlt' | ⟨-, hle'⟩ := keyLe_iff.mp hle
    · rw [heq] at hlt'
      exact absurd hlt' (not_lt.mpr hrecorded)
    · omega
  obtain ⟨-, -, hcross⟩ := List.pairwise_append.mp h.rising
  obtain hr | hr := List.mem_append.mp hr
  · exact hshort (Nat.le_of_lt (hcross revision hr last List.mem_cons_self)) (h.before_le revision hr) hle
  · obtain rfl | hr := List.mem_cons.mp hr
    · exact hshort le_rfl le_rfl hle
    · obtain hlt' | ⟨heq', -⟩ := keyLe_iff.mp hle
      · rw [heq] at hlt'
        exact lt_asymm hlt' (h.after_lt revision hr)
      · rw [heq] at heq'
        exact (h.after_lt revision hr).ne heq'.symm

theorem lastMax_of_first (h : ∀ revision ∈ later, revision.recordedAt < first.recordedAt) :
    LastMax (fun x y => keyLe x y = true) (first :: later) first := by
  refine ⟨[], later, rfl, fun _ h => absurd h List.not_mem_nil, fun revision hr hle => ?_⟩
  obtain hlt | ⟨heq, -⟩ := keyLe_iff.mp hle
  · exact lt_asymm hlt (h revision hr)
  · exact (h revision hr).ne heq.symm

theorem filter_first {keep : NodeRevision → Bool} (h : keep first = true) :
    (first :: later).filter keep = first :: later.filter keep := by
  rw [List.filter_cons, if_pos h]

theorem exists_behind (h : later.Pairwise Before)
    (hmax : LastMax (fun x y : NodeRevision => x.recordedAt ≤ y.recordedAt) (first :: later) last) :
    last = first ∧ (∀ revision ∈ later, revision.recordedAt < first.recordedAt) ∨
      ∃ before after, later = before ++ last :: after ∧ Behind first before last after := by
  obtain ⟨before, after, heq, hbefore, hafter⟩ := hmax
  cases before with
  | nil =>
      obtain ⟨rfl, rfl⟩ := List.cons.inj heq
      exact .inl ⟨rfl, fun revision hr => lt_of_not_ge (hafter revision hr)⟩
  | cons head before =>
      obtain ⟨rfl, htail⟩ := List.cons.inj heq
      have hlater : later = before ++ last :: after := htail
      obtain ⟨hfirst, hbefore⟩ := List.forall_mem_cons.mp hbefore
      exact .inr ⟨before, after, hlater, hlater ▸ h, hfirst, hbefore,
        fun revision hr => lt_of_not_ge (hafter revision hr)⟩

theorem Behind.getLast?_eq (h : Behind first before last after) {knownAt : Timestamp}
    (hsplit : later.filter (fun revision => revision.recordedAt ≤ knownAt) = before ++ last :: after)
    (heq : first.recordedAt = last.recordedAt) (hfirst : first.recordedAt ≤ knownAt) :
    (later.filter fun revision => revision.recordedAt = first.recordedAt).getLast? = some last := by
  have hwithin : (later.filter fun revision => revision.recordedAt = first.recordedAt) =
      (before ++ last :: after).filter fun revision => revision.recordedAt = first.recordedAt := by
    rw [← hsplit, List.filter_filter]
    apply List.filter_congr
    intro revision _
    by_cases hr : revision.recordedAt = first.recordedAt
    · simp [hr, hfirst]
    · simp [hr]
  have hnone : (after.filter fun revision => revision.recordedAt = first.recordedAt) = [] := by
    rw [List.filter_eq_nil_iff]
    intro revision hr hrecorded
    have hlt := h.after_lt revision hr
    rw [of_decide_eq_true hrecorded, heq] at hlt
    exact lt_irrefl _ hlt
  rw [hwithin, List.filter_append, List.filter_cons, hnone, if_pos (decide_eq_true heq.symm), List.getLast?_append]
  rfl

theorem settled_of_visibleOf (h : later.Pairwise Before)
    (hvisible : ∀ knownAt, visibleOf (first :: later) knownAt = newestOf (first :: later) knownAt) :
    Settled first later := by
  intro revision hr
  obtain ⟨hmem, hrecorded⟩ := List.mem_filter.mp (List.mem_of_getLast? hr)
  have hrecorded : revision.recordedAt = first.recordedAt := of_decide_eq_true hrecorded
  have hfirst := @filter_first first later (fun revision => revision.recordedAt ≤ first.recordedAt)
    (decide_eq_true le_rfl)
  obtain ⟨last, hmax⟩ := exists_lastMax NodeRevision.recordedAt (List.cons_ne_nil first
    (later.filter fun revision => revision.recordedAt ≤ first.recordedAt))
  obtain ⟨rfl, hlt⟩ | ⟨before, after, hsplit, hbehind⟩ := exists_behind (h.filter _) hmax
  · -- The revision itself is recorded with the first one, and comes behind it.
    have hin := hlt revision (List.mem_filter.mpr ⟨hmem, decide_eq_true hrecorded.le⟩)
    exact absurd hrecorded hin.ne
  · have hlast : last.recordedAt ≤ first.recordedAt := by
      have hin : last ∈ later.filter fun revision => revision.recordedAt ≤ first.recordedAt := by
        rw [hsplit]
        exact List.mem_append_right _ List.mem_cons_self
      exact of_decide_eq_true (List.mem_filter.mp hin).2
    have heq := le_antisymm hbehind.first_le hlast
    rw [hbehind.getLast?_eq hsplit heq le_rfl, Option.some.injEq] at hr
    subst hr
    rw [← hfirst] at hmax
    obtain hlt | hle := Nat.lt_or_ge last.position.toNat first.position.toNat
    · right
      have hshown := hbehind.lastMax_first heq hlt
      rw [← hsplit, ← hfirst] at hshown
      have hboth := (visibleOf_of_lastMax hshown).symm.trans
        ((hvisible first.recordedAt).trans (newestOf_of_lastMax hmax))
      exact (Option.some.inj hboth).symm
    · exact .inl hle

theorem visibleOf_of_settled (h : later.Pairwise Before) (hsettled : Settled first later) (knownAt : Timestamp) :
    visibleOf (first :: later) knownAt = newestOf (first :: later) knownAt := by
  by_cases hknown : first.recordedAt ≤ knownAt
  · have hfirst := @filter_first first later (fun revision => revision.recordedAt ≤ knownAt) (decide_eq_true hknown)
    obtain ⟨last, hmax⟩ := exists_lastMax NodeRevision.recordedAt (List.cons_ne_nil first
      (later.filter fun revision => revision.recordedAt ≤ knownAt))
    have hshown : ∃ revision, LastMax (fun x y => keyLe x y = true)
        (first :: later.filter fun revision => revision.recordedAt ≤ knownAt) revision ∧ revision.node = last.node := by
      obtain ⟨rfl, hlt⟩ | ⟨before, after, hsplit, hbehind⟩ := exists_behind (h.filter _) hmax
      · exact ⟨last, lastMax_of_first hlt, rfl⟩
      · rw [hsplit]
        by_cases hwins : first.recordedAt = last.recordedAt ∧ last.position.toNat < first.position.toNat
        · obtain ⟨heq, hlt⟩ := hwins
          obtain hle | hnode := hsettled last (hbehind.getLast?_eq hsplit heq hknown)
          · omega
          · exact ⟨first, hbehind.lastMax_first heq hlt, hnode.symm⟩
        · exact ⟨last, hbehind.lastMax fun heq => Nat.not_lt.mp fun hlt => hwins ⟨heq, hlt⟩, rfl⟩
    obtain ⟨revision, hvisible, hnode⟩ := hshown
    rw [← hfirst] at hmax hvisible
    rw [visibleOf_of_lastMax hvisible, newestOf_of_lastMax hmax, hnode]
  · have hskip : (first :: later).filter (fun revision => revision.recordedAt ≤ knownAt) =
        later.filter fun revision => revision.recordedAt ≤ knownAt := by
      rw [List.filter_cons, if_neg (by simpa using hknown)]
    have hlater := visibleOf_eq_newestOf h knownAt
    rw [visibleOf, newestOf] at hlater
    rw [visibleOf, newestOf, hskip, hlater]

/-- The last write is shown at every time exactly if the first revision is not in the way. -/
theorem visibleOf_iff_settled (h : later.Pairwise Before) :
    (∀ knownAt, visibleOf (first :: later) knownAt = newestOf (first :: later) knownAt) ↔ Settled first later :=
  ⟨settled_of_visibleOf h, visibleOf_of_settled h⟩

variable {p q : MemoryProjection} {event : StoredEvent MemoryEvent} {change : Change}

theorem revisionsIn_of_mem (hp : Valid p) {history : NodeHistory} (h : history ∈ p.nodes) :
    revisionsIn p history.id = history.revisions := by
  rw [revisionsIn]
  cases hf : p.nodes.find? (fun other => other.id = history.id) with
  | none => exact absurd (decide_eq_true rfl) (List.find?_eq_none.mp hf history h)
  | some other =>
      have hid : other.id = history.id := by simpa using List.find?_some hf
      rw [List.inj_on_of_nodup_map hp.sound.nodeIds (List.mem_of_find?_eq_some hf) h hid]
      rfl

theorem revisionsIn_of_not_mem {id : EntityId} (h : id ∉ p.nodes.map NodeHistory.id) : revisionsIn p id = [] := by
  have hnone : p.nodes.find? (fun history => history.id = id) = none := by
    rw [List.find?_eq_none]
    intro history hh hid
    exact h (List.mem_map.mpr ⟨history, hh, of_decide_eq_true hid⟩)
  rw [revisionsIn, hnone]
  rfl

theorem visibleNode_revisionsIn (hp : Valid p) (id : EntityId) (knownAt : Timestamp) :
    visibleNode p id knownAt = .ok (visibleOf (revisionsIn p id) knownAt) := by
  rw [visibleNode]
  cases hg : p.nodeLookup.get id with
  | none =>
      rw [revisionsIn_of_not_mem (hp.indexed.nodeLookup.get_eq_none.mp hg)]
      rfl
  | some i =>
      obtain ⟨history, hs, rfl⟩ := hp.indexed.node_index.mp hg
      rw [revisionsIn_of_mem hp (List.mem_of_getElem? hs)]
      simp only [getAt_eq_ok.mpr hs, ok_bind]
      rfl

theorem revisionsOf_upsert (metadata : EventMetadata) (node : MemoryNode) (id : EntityId) :
    revisionsOf [⟨metadata, .nodeUpserted node⟩] id =
      if node.id = id then [⟨node, metadata.recordedAt, metadata.globalPosition⟩] else [] := by
  by_cases h : node.id = id
  · simp [revisionsOf, revisionOf, h]
  · simp [revisionsOf, revisionOf, h]

theorem find?_other {history : NodeHistory} {rest : List NodeHistory} {id : EntityId} (h : history.id ≠ id) :
    (history :: rest).find? (fun history => history.id = id) = rest.find? fun history => history.id = id := by
  apply List.find?_cons_of_neg
  simpa using h

theorem revisionsIn_applied (hp : Valid p) (ha : Admitted p event.metadata event.payload change) (id : EntityId) :
    revisionsIn (change.applied p event) id = revisionsIn p id ++ revisionsOf [event] id := by
  have hq := hp.applied ha
  obtain ⟨metadata, payload⟩ := event
  cases ha with
  | @revise node index history valid known stored =>
      obtain ⟨other, ho, hnode⟩ := hp.indexed.node_index.mp known
      obtain rfl := Option.some.inj (stored.symm.trans ho)
      by_cases hid : node.id = id
      · subst hid
        have hin : { history with later := history.later ++
            [⟨node, metadata.recordedAt, metadata.globalPosition⟩] } ∈ p.nodes.set index { history with
              later := history.later ++ [⟨node, metadata.recordedAt, metadata.globalPosition⟩] } :=
          List.mem_set (List.getElem?_eq_some_iff.mp stored).1 _
        have hrevised := revisionsIn_of_mem hq hin
        have hheld := revisionsIn_of_mem hp (List.mem_of_getElem? stored)
        rw [revisionsOf_upsert, if_pos rfl, ← hnode, hheld]
        exact hrevised
      · obtain ⟨hheld, hset⟩ := split_set stored { history with
          later := history.later ++ [⟨node, metadata.recordedAt, metadata.globalPosition⟩] }
        have hother : history.id ≠ id := fun h => hid (hnode.symm.trans h)
        have hfind : (p.nodes.set index { history with
            later := history.later ++ [⟨node, metadata.recordedAt, metadata.globalPosition⟩] }).find?
              (fun history => history.id = id) = p.nodes.find? fun history => history.id = id := by
          rw [hset, List.find?_append, find?_other (by exact hother)]
          conv_rhs => rw [hheld, List.find?_append, find?_other hother]
        rw [revisionsOf_upsert, if_neg hid, List.append_nil, revisionsIn, revisionsIn, ← hfind]
        rfl
  | @add node valid unknown =>
      have hfresh := hp.indexed.nodeLookup.get_eq_none.mp unknown
      by_cases hid : node.id = id
      · subst hid
        have hin : NodeHistory.new ⟨node, metadata.recordedAt, metadata.globalPosition⟩ ∈
            p.nodes ++ [NodeHistory.new ⟨node, metadata.recordedAt, metadata.globalPosition⟩] :=
          List.mem_append_right _ List.mem_cons_self
        have hadded := revisionsIn_of_mem hq hin
        rw [revisionsIn_of_not_mem hfresh, revisionsOf_upsert, if_pos rfl]
        exact hadded
      · have hfind : (p.nodes ++ [NodeHistory.new ⟨node, metadata.recordedAt, metadata.globalPosition⟩]).find?
            (fun history => history.id = id) = p.nodes.find? fun history => history.id = id := by
          rw [List.find?_append, find?_other (by exact hid), List.find?_nil, Option.or_none]
        rw [revisionsOf_upsert, if_neg hid, List.append_nil, revisionsIn, revisionsIn, ← hfind]
        rfl
  | record => exact (List.append_nil _).symm
  | retract => exact (List.append_nil _).symm

theorem lastGlobalPosition_accepted (h : apply event p = .ok () q ∨ applyOwned event p = .ok () q) :
    q.lastGlobalPosition = some event.metadata.globalPosition := by
  obtain ⟨change, -, rfl⟩ := accepted_eq h
  rfl

variable {events more : List (StoredEvent MemoryEvent)} {r : MemoryProjection}

theorem Continued.append (h : Continued p events q) (h' : Continued q more r) : Continued p (events ++ more) r := by
  induction events generalizing p with
  | nil =>
      obtain rfl : q = p := h
      exact h'
  | cons event rest ih =>
      obtain ⟨hposition, next, haccepted, hrest⟩ := h
      exact ⟨hposition, next, haccepted, ih hrest⟩

theorem Continued.revisionsIn_eq (hp : Valid p) (h : Continued p events q) :
    Valid q ∧ ∀ id, revisionsIn q id = revisionsIn p id ++ revisionsOf events id := by
  induction events generalizing p with
  | nil =>
      obtain rfl : q = p := h
      exact ⟨hp, fun id => (List.append_nil _).symm⟩
  | cons event rest ih =>
      obtain ⟨-, next, haccepted, hrest⟩ := h
      obtain ⟨change, ha, rfl⟩ := accepted_eq haccepted
      obtain ⟨hq, hrevisions⟩ := ih (hp.applied ha) hrest
      refine ⟨hq, fun id => ?_⟩
      have happend : revisionsOf (event :: rest) id = revisionsOf [event] id ++ revisionsOf rest id :=
        @List.filterMap_append _ _ [event] rest (revisionOf id)
      rw [hrevisions, revisionsIn_applied hp ha, happend, List.append_assoc]

theorem Continued.rising (h : Continued p events q) :
    (∀ event ∈ events, nextOf p.lastGlobalPosition ≤ event.metadata.globalPosition.toNat) ∧
      events.Pairwise fun a b => a.metadata.globalPosition.toNat < b.metadata.globalPosition.toNat := by
  induction events generalizing p with
  | nil => exact ⟨fun _ h => absurd h List.not_mem_nil, List.Pairwise.nil⟩
  | cons event rest ih =>
      obtain ⟨hposition, next, haccepted, hrest⟩ := h
      obtain ⟨hlater, hrising⟩ := ih hrest
      rw [lastGlobalPosition_accepted haccepted] at hlater
      have hfirst := following_eq_ok.mp hposition
      refine ⟨List.forall_mem_cons.mpr ⟨hfirst.ge, fun other ho => ?_⟩, List.pairwise_cons.mpr ⟨hlater, hrising⟩⟩
      have hlt : event.metadata.globalPosition.toNat + 1 ≤ other.metadata.globalPosition.toNat := hlater other ho
      omega

theorem revisionOf_eq_some {id : EntityId} {revision : NodeRevision} (h : revisionOf id event = some revision) :
    revision.position = event.metadata.globalPosition ∧ revision.node.id = id ∧
      writeOf event = some (NodeRevision.write revision) := by
  rw [revisionOf] at h
  rw [writeOf]
  cases hpayload : event.payload with
  | nodeUpserted node =>
      simp only [hpayload] at h
      split at h
      next hid =>
        obtain rfl := Option.some.inj h
        exact ⟨rfl, hid, rfl⟩
      next => cases h
  | factRecorded fact =>
      simp only [hpayload] at h
      cases h
  | factRetracted factId validUntil evidence =>
      simp only [hpayload] at h
      cases h

theorem Continued.revisions_rising (h : Continued p events q) (id : EntityId) :
    (revisionsOf events id).Pairwise Before := by
  refine h.rising.2.filterMap (revisionOf id) fun a b hlt revision hr other ho => ?_
  rw [Before, (revisionOf_eq_some hr).1, (revisionOf_eq_some ho).1]
  exact hlt

theorem writesOf_filter (events : List (StoredEvent MemoryEvent)) (id : EntityId) :
    (writesOf events).filter (fun write => write.node.id = id) = (revisionsOf events id).map NodeRevision.write := by
  induction events with
  | nil => rfl
  | cons event rest ih =>
      rw [writesOf, revisionsOf, List.filterMap_cons, List.filterMap_cons, writeOf, revisionOf]
      cases event.payload with
      | nodeUpserted node =>
          dsimp only
          rw [List.filter_cons]
          by_cases hid : node.id = id
          · rw [if_pos (decide_eq_true hid), if_pos hid, List.map_cons]
            exact congrArg _ ih
          · rw [if_neg (by simpa using hid), if_neg hid]
            exact ih
      | factRecorded fact => exact ih
      | factRetracted factId validUntil evidence => exact ih

theorem lastWritten_eq {writes : List Write} {id : EntityId} {revisions : List NodeRevision}
    (h : writes.filter (fun write => write.node.id = id) = revisions.map NodeRevision.write) (knownAt : Timestamp) :
    lastWritten writes id knownAt = newestOf revisions knownAt := by
  have hknown : writes.filter (fun write => write.node.id = id ∧ write.recordedAt ≤ knownAt) =
      (revisions.filter fun revision => revision.recordedAt ≤ knownAt).map NodeRevision.write := by
    have hboth : writes.filter (fun write => write.node.id = id ∧ write.recordedAt ≤ knownAt) =
        (writes.filter fun write => write.node.id = id).filter fun write => write.recordedAt ≤ knownAt := by
      rw [List.filter_filter]
      apply List.filter_congr
      intro write _
      simp [Bool.and_comm]
    rw [hboth, h, List.filter_map]
    rfl
  rw [lastWritten, newestOf, hknown, newest_map, Option.map_map]
  rfl

theorem continued_of_applyLoop {step : StoredEvent MemoryEvent → Update MemoryProjection Unit}
    (hstep : ∀ event p q, step event p = .ok () q → apply event p = .ok () q ∨ applyOwned event p = .ok () q)
    {requireZeroStart : Bool} {eventIds : List EventId} {cursor cursor' : ReplayCursor}
    (hc : cursor.globalPosition = p.lastGlobalPosition)
    (h : applyLoop step requireZeroStart events eventIds p cursor = .ok (q, cursor')) : Continued p events q := by
  induction events generalizing eventIds p cursor with
  | nil =>
      rw [applyLoop, Except.ok.injEq, Prod.mk.injEq] at h
      exact h.1.symm
  | cons event rest ih =>
      obtain ⟨hfollows, next, hnext, hrest⟩ := applyLoop_cons_eq_ok.mp h
      have haccepted := hstep event p next hnext
      refine ⟨hc ▸ hfollows.position, next, haccepted, ih ?_ hrest⟩
      rw [lastGlobalPosition_accepted haccepted]
      rfl

theorem continued_of_replay {seeds : Seeds}
    (h : replay (memory seeds) events = .ok p ∨ replayOwned (memory seeds) events = .ok p) :
    Continued (.default seeds) events p := by
  obtain h | h := h
  · obtain ⟨⟨q, cursor⟩, hloop, rfl⟩ := map_eq_ok.mp h
    exact continued_of_applyLoop (fun _ _ _ => .inl) rfl hloop
  · obtain ⟨⟨q, cursor⟩, hloop, rfl⟩ := map_eq_ok.mp h
    exact continued_of_applyLoop (fun _ _ _ => .inr) rfl hloop

variable {seeds : Seeds} {nodes : List MemoryNode} {facts : List MemoryFact} {recordedAt : Timestamp}

theorem insertNodes_length {position : Nat} (h : insertNodes recordedAt position nodes p = .ok q) (hn : nodes ≠ []) :
    position + nodes.length ≤ 2 ^ 64 := by
  induction nodes generalizing position p with
  | nil => exact absurd rfl hn
  | cons node rest ih =>
      rw [insertNodes] at h
      simp only [bind_eq_ok] at h
      obtain ⟨_, -, _, -, recorded, hr, h⟩ := h
      have hlt := recorded.toNat_lt
      rw [u64TryFrom_eq_ok.mp hr] at hlt
      rw [List.length_cons]
      cases rest with
      | nil =>
          rw [List.length_nil]
          omega
      | cons other rest =>
          have hrest := ih h (List.cons_ne_nil _ _)
          omega

theorem getElem?_numbered {position i : Nat} {node : MemoryNode} (h : nodes[i]? = some node) :
    NodeHistory.new ⟨node, recordedAt, UInt64.ofNat (position + i)⟩ ∈ numbered recordedAt position nodes := by
  induction nodes generalizing position i with
  | nil => cases h
  | cons first rest ih =>
      rw [numbered]
      cases i with
      | zero =>
          obtain rfl := Option.some.inj h
          exact List.mem_cons_self
      | succ i =>
          have hrest := @ih (position + 1) i h
          rw [show position + 1 + i = position + (i + 1) by omega] at hrest
          exact List.mem_cons_of_mem _ hrest

theorem revisionsIn_built (h : Built seeds nodes facts recordedAt p) {i : Nat} {node : MemoryNode}
    (hn : nodes[i]? = some node) : revisionsIn p node.id = [⟨node, recordedAt, UInt64.ofNat i⟩] := by
  have hin := @getElem?_numbered nodes recordedAt 0 i node hn
  rw [← h.nodes_eq, Nat.zero_add] at hin
  exact revisionsIn_of_mem h.valid hin

theorem nodeIds_built (h : Built seeds nodes facts recordedAt p) :
    p.nodes.map NodeHistory.id = nodes.map MemoryNode.id := by
  rw [h.nodes_eq, ids_numbered]

theorem index_built (h : Built seeds nodes facts recordedAt p) {i : Nat} {node : MemoryNode}
    (hn : nodes[i]? = some node) : (UInt64.ofNat i).toNat = i := by
  obtain ⟨q, hinserted, -⟩ := h.inserted
  have hlt := (List.getElem?_eq_some_iff.mp hn).1
  have hlength := insertNodes_length hinserted (List.ne_nil_of_length_pos (by omega))
  exact UInt64.toNat_ofNat_of_lt' (show i < 2 ^ 64 by omega)

theorem filter_key_eq {α κ : Type} [DecidableEq κ] {key : α → κ} {xs : List α} (h : (xs.map key).Nodup) {a : α}
    (ha : a ∈ xs) : xs.filter (fun x => key x = key a) = [a] := by
  induction xs with
  | nil => exact absurd ha List.not_mem_nil
  | cons x xs ih =>
      obtain ⟨hx, hxs⟩ := List.nodup_cons.mp h
      rw [List.filter_cons]
      obtain rfl | ha := List.mem_cons.mp ha
      · have hnone : xs.filter (fun x => key x = key a) = [] := by
          rw [List.filter_eq_nil_iff]
          intro y hy heq
          exact hx (of_decide_eq_true heq ▸ List.mem_map_of_mem hy)
        rw [if_pos (decide_eq_true rfl), hnone]
      · have hne : key x ≠ key a := fun heq => hx (heq ▸ List.mem_map_of_mem ha)
        rw [if_neg (by simpa using hne), ih hxs ha]

theorem writes_built (h : Built seeds nodes facts recordedAt p) (id : EntityId) :
    (nodes.map fun node => (⟨node, recordedAt⟩ : Write)).filter (fun write => write.node.id = id) =
      (revisionsIn p id).map NodeRevision.write := by
  have hwrites : (nodes.map fun node => (⟨node, recordedAt⟩ : Write)).filter (fun write => write.node.id = id) =
      (nodes.filter fun node => node.id = id).map fun node => ⟨node, recordedAt⟩ := List.filter_map
  rw [hwrites]
  by_cases hid : id ∈ nodes.map MemoryNode.id
  · obtain ⟨node, hn, rfl⟩ := List.mem_map.mp hid
    obtain ⟨i, hi⟩ := List.mem_iff_getElem?.mp hn
    have hnodup : (nodes.map MemoryNode.id).Nodup := nodeIds_built h ▸ h.valid.sound.nodeIds
    rw [revisionsIn_built h hi, filter_key_eq hnodup hn]
    rfl
  · have hnone : nodes.filter (fun node => node.id = id) = [] := by
      rw [List.filter_eq_nil_iff]
      intro node hn heq
      exact hid (List.mem_map.mpr ⟨node, hn, of_decide_eq_true heq⟩)
    rw [hnone, revisionsIn_of_not_mem (by rwa [nodeIds_built h])]
    rfl

theorem Continued.visible_iff (hp : Valid p) (h : Continued p events q) {base : List Write} {id : EntityId}
    (hbase : base.filter (fun write => write.node.id = id) = (revisionsIn p id).map NodeRevision.write)
    (knownAt : Timestamp) :
    visibleNode q id knownAt = .ok (lastWritten (base ++ writesOf events) id knownAt) ↔
      visibleOf (revisionsIn p id ++ revisionsOf events id) knownAt =
        newestOf (revisionsIn p id ++ revisionsOf events id) knownAt := by
  obtain ⟨hq, hrevisions⟩ := h.revisionsIn_eq hp
  have hwrites : (base ++ writesOf events).filter (fun write => write.node.id = id) =
      (revisionsIn p id ++ revisionsOf events id).map NodeRevision.write := by
    rw [List.filter_append, hbase, writesOf_filter, List.map_append]
  rw [visibleNode_revisionsIn hq, hrevisions, lastWritten_eq hwrites, Except.ok.injEq]

theorem settled_iff_keepsOrder (h : Built seeds nodes facts recordedAt p) :
    (∀ i node, nodes[i]? = some node → Settled ⟨node, recordedAt, UInt64.ofNat i⟩ (revisionsOf events node.id)) ↔
      KeepsOrder nodes recordedAt events := by
  refine forall_congr' fun i => forall_congr' fun node => forall_congr' fun hn => ?_
  rw [Settled, index_built h hn]

/-- A replayed projection shows the last write of each entity at each time. One built from parts does so
exactly if the events that follow keep the order of its list. -/
theorem last_write_visible_iff (p q : MemoryProjection) (more : List (StoredEvent MemoryEvent))
    (hq : Continued p more q) :
    (∀ (seeds : Seeds) (events : List (StoredEvent MemoryEvent)),
      (replay (memory seeds) events = .ok p ∨ replayOwned (memory seeds) events = .ok p) →
      ∀ id knownAt, visibleNode q id knownAt = .ok (lastWritten (writesOf (events ++ more)) id knownAt)) ∧
    ∀ (seeds : Seeds) (parallelism : Nat) (nodes : List MemoryNode) (facts : List MemoryFact) (recordedAt : Timestamp)
      (sourcePosition : Option UInt64),
      tryFromParts seeds parallelism nodes facts recordedAt sourcePosition = .ok p →
        ((∀ id knownAt, visibleNode q id knownAt =
            .ok (lastWritten (nodes.map (fun node => ⟨node, recordedAt⟩) ++ writesOf more) id knownAt)) ↔
          KeepsOrder nodes recordedAt more) := by
  refine ⟨fun seeds events h id knownAt => ?_, fun seeds parallelism nodes facts recordedAt sourcePosition h => ?_⟩
  · have hrun := (continued_of_replay h).append hq
    have hvisible := @Continued.visible_iff _ _ _ (valid_default seeds) hrun [] id rfl knownAt
    rw [List.nil_append] at hvisible
    rw [hvisible]
    exact visibleOf_eq_newestOf (hrun.revisions_rising id) knownAt
  · have hbuilt := (tryFromParts_holds seeds parallelism nodes facts recordedAt sourcePosition).of_ok h
    rw [← settled_iff_keepsOrder hbuilt]
    simp only [hq.visible_iff hbuilt.valid (writes_built hbuilt _)]
    constructor
    · intro hvisible i node hn
      rw [← visibleOf_iff_settled (hq.revisions_rising node.id)]
      intro knownAt
      have hnode := hvisible node.id knownAt
      rwa [revisionsIn_built hbuilt hn] at hnode
    · intro hsettled id knownAt
      by_cases hid : id ∈ nodes.map MemoryNode.id
      · obtain ⟨node, hn, rfl⟩ := List.mem_map.mp hid
        obtain ⟨i, hi⟩ := List.mem_iff_getElem?.mp hn
        rw [revisionsIn_built hbuilt hi]
        exact visibleOf_of_settled (hq.revisions_rising node.id) (hsettled i node hi) knownAt
      · rw [revisionsIn_of_not_mem (by rwa [nodeIds_built hbuilt]), List.nil_append]
        exact visibleOf_eq_newestOf (hq.revisions_rising id) knownAt

def renamed : MemoryNode := { Common.node Common.file with label := ⟨"Renamed", by decide⟩ }

def relabelled : StoredEvent MemoryEvent :=
  Common.stored 0 (Common.event (Common.eventId 0) (Common.ts 1) (.nodeUpserted renamed))

theorem last_write_visible_renamed :
    ∃ p q, tryFromParts ⟨1, 2⟩ 4 [Common.node Common.file, Common.node Common.task] [] (Common.ts 1) none = .ok p ∧
      Continued p [relabelled] q ∧
      ((∀ id knownAt, visibleNode q id knownAt = .ok (lastWritten
          ([Common.node Common.file, Common.node Common.task].map (fun node => ⟨node, Common.ts 1⟩) ++
            writesOf [relabelled]) id knownAt)) ↔
        KeepsOrder [Common.node Common.file, Common.node Common.task] (Common.ts 1) [relabelled]) := by
  refine ⟨_, _, by rfl, ⟨by rfl, _, .inl (eq_ok_of_accepted (by decide +kernel)), rfl⟩, ?_⟩
  exact (last_write_visible_iff _ _ [relabelled] ⟨by rfl, _, .inl (eq_ok_of_accepted (by decide +kernel)), rfl⟩).2
    ⟨1, 2⟩ 4 [Common.node Common.file, Common.node Common.task] [] (Common.ts 1) none (by rfl)

/-- The second of two listed nodes is written again at the first position, and the listed one stays. -/
theorem last_write_hidden :
    ∃ p q, tryFromParts ⟨1, 2⟩ 4 [Common.node Common.task, Common.node Common.file] [] (Common.ts 1) none = .ok p ∧
      Continued p [relabelled] q ∧
      visibleNode q Common.file (Common.ts 1) = .ok (some (Common.node Common.file)) ∧
      lastWritten ([Common.node Common.task, Common.node Common.file].map (fun node => ⟨node, Common.ts 1⟩) ++
        writesOf [relabelled]) Common.file (Common.ts 1) = some renamed ∧
      renamed ≠ Common.node Common.file :=
  ⟨_, _, by rfl, ⟨by rfl, _, .inl (eq_ok_of_accepted (by decide +kernel)), rfl⟩, by decide +kernel, by decide +kernel,
    by decide⟩

end WeavatrixMemory.Projection.Revisions
