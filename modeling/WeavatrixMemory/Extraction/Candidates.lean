import WeavatrixMemory.Extraction.Catalog
import WeavatrixMemory.Library.Sorting

namespace WeavatrixMemory.Extraction.Candidates

open Error Identity Domain Key Model Linker Catalog Sorting

def scoreOf (node : MemoryNode) (mention : ExtractedEntity) (input : ExtractionInput) (base : UInt16) : Nat :=
  min (max 0 (min (base.toNat + (scopeStep input.repository node.repository 400 (-2000) (-300)).1 +
    (scopeStep input.branch node.branch 200 (-700) (-100)).1) 10000)).toNat mention.confidence.basisPoints.toNat

/-- The methods of a link to a node of the catalog that was found by a match. -/
def Matching (method : LinkMethod) : Prop :=
  method ≠ .stableId ∧ method ≠ .created ∧ method ≠ .ambiguous ∧ method ≠ .unresolved

/-- Where a method stands in the order in which the matches are tried. -/
def phase : LinkMethod → Nat
  | .scopedLabel | .label => 0
  | .alias => 1
  | .externalId => 2
  | .providerHint => 3
  | .stableId | .created | .ambiguous | .unresolved => 4

structure BestOffer (offers : EntityId → Nat → LinkMethod → Prop) (candidate : LinkCandidate) : Prop where
  matching : Matching candidate.method
  offered : offers candidate.entityId candidate.score.basisPoints.toNat candidate.method
  best : ∀ score method, offers candidate.entityId score method → score ≤ candidate.score.basisPoints.toNat
  first : ∀ method, offers candidate.entityId candidate.score.basisPoints.toNat method →
    phase candidate.method ≤ phase method

/-- The map holds the best offer of each entity that is offered, when the matches up to a phase have been tried. -/
structure Collected (last : Nat) (offers : EntityId → Nat → LinkMethod → Prop)
    (candidates : BTreeMap EntityId LinkCandidate) : Prop where
  tried : ∀ id score method, offers id score method → phase method ≤ last
  absent : ∀ id, candidates[id]? = none → ∀ score method, ¬ offers id score method
  present : ∀ id candidate, candidates[id]? = some candidate →
    candidate.entityId = id ∧ BestOffer offers candidate

variable {unicode : Unicode} {nodes : List MemoryNode} {linker : EntityLinker} {mention : ExtractedEntity}
  {input : ExtractionInput} {offers : EntityId → Nat → LinkMethod → Prop} {last : Nat}
  {candidates : BTreeMap EntityId LinkCandidate}

theorem scopeScore_toNat (base : UInt16) (node : MemoryNode) (kind : String) :
    ((scopeScore base ⟨node.id, kind, node.repository, node.branch⟩ input).1).toNat =
      (max 0 (min (base.toNat + (scopeStep input.repository node.repository 400 (-2000) (-300)).1 +
        (scopeStep input.branch node.branch 200 (-700) (-100)).1) 10000)).toNat := by
  rw [scopeScore]
  apply UInt16.toNat_ofNat_of_lt'
  have h : max 0 (min ((base.toNat : Int) + (scopeStep input.repository node.repository 400 (-2000) (-300)).1 +
      (scopeStep input.branch node.branch 200 (-700) (-100)).1) 10000) ≤ 10000 :=
    max_le (by decide) (min_le_right _ _)
  rw [UInt16.size]
  omega

theorem toNat_min (a b : UInt16) : (min a b).toNat = min a.toNat b.toNat := by
  change (if a ≤ b then a else b).toNat = _
  split
  next h => exact (Nat.min_eq_left (UInt16.le_iff_toNat_le.mp h)).symm
  next h => exact (Nat.min_eq_right (Nat.le_of_lt (UInt16.lt_iff_toNat_lt.mp (UInt16.not_le.mp h)))).symm

theorem scoreOf_le (node : MemoryNode) (mention : ExtractedEntity) (input : ExtractionInput) (base : UInt16) :
    scoreOf node mention input base ≤ 10000 := by
  rw [scoreOf]
  have h : max 0 (min ((base.toNat : Int) + (scopeStep input.repository node.repository 400 (-2000) (-300)).1 +
      (scopeStep input.branch node.branch 200 (-700) (-100)).1) 10000) ≤ 10000 :=
    max_le (by decide) (min_le_right _ _)
  omega

theorem collected_empty : Collected 0 (fun _ _ _ => False) ∅ where
  tried _ _ _ h := h.elim
  absent _ _ _ _ h := h
  present id candidate h := by
    rw [Std.ExtTreeMap.getElem?_empty] at h
    cases h

theorem BestOffer.congr {offers' : EntityId → Nat → LinkMethod → Prop} {candidate : LinkCandidate}
    (h : BestOffer offers candidate) (hiff : ∀ id score method, offers id score method ↔ offers' id score method) :
    BestOffer offers' candidate where
  matching := h.matching
  offered := (hiff _ _ _).mp h.offered
  best score method hs := h.best score method ((hiff _ _ _).mpr hs)
  first method hm := h.first method ((hiff _ _ _).mpr hm)

theorem Collected.congr {offers' : EntityId → Nat → LinkMethod → Prop} (h : Collected last offers candidates)
    (hiff : ∀ id score method, offers id score method ↔ offers' id score method) :
    Collected last offers' candidates where
  tried id score method hs := h.tried id score method ((hiff _ _ _).mpr hs)
  absent id hid score method hs := h.absent id hid score method ((hiff _ _ _).mpr hs)
  present id candidate hid := by
    obtain ⟨hsame, hbest⟩ := h.present id candidate hid
    exact ⟨hsame, hbest.congr hiff⟩

theorem Collected.later (h : Collected last offers candidates) {next : Nat} (hle : last ≤ next) :
    Collected next offers candidates where
  tried id score method hs := (h.tried id score method hs).trans hle
  absent := h.absent
  present := h.present

theorem Collected.insert (h : Collected last offers candidates) {new : LinkCandidate} (hm : Matching new.method)
    (hphase : phase new.method = last)
    (hbetter : ∀ old, candidates[new.entityId]? = some old →
      old.score.basisPoints.toNat < new.score.basisPoints.toNat) :
    Collected last (fun id score method => offers id score method ∨
        id = new.entityId ∧ score = new.score.basisPoints.toNat ∧ method = new.method)
      (candidates.insert new.entityId new) where
  tried id score method hs := by
    obtain hs | ⟨-, -, rfl⟩ := hs
    · exact h.tried id score method hs
    · exact hphase.le
  absent id hid score method hs := by
    rw [getElem?_insert] at hid
    split at hid
    next => cases hid
    next hne =>
      obtain hs | ⟨heq, -⟩ := hs
      · exact h.absent id hid score method hs
      · exact hne heq
  present id candidate hid := by
    rw [getElem?_insert] at hid
    split at hid
    next heq =>
      obtain rfl := Option.some.inj hid
      have hless : ∀ score method, offers new.entityId score method → score < new.score.basisPoints.toNat := by
        intro score method hs
        cases hold : candidates[new.entityId]? with
        | none => exact absurd hs (h.absent _ hold score method)
        | some old =>
            obtain ⟨hsame, hbest⟩ := h.present _ old hold
            rw [← hsame] at hs
            exact (hbest.best score method hs).trans_lt (hbetter old hold)
      refine ⟨heq.symm, hm, .inr ⟨rfl, rfl, rfl⟩, fun score method hs => ?_, fun method hs => ?_⟩
      · obtain hs | ⟨-, rfl, -⟩ := hs
        · exact (hless score method hs).le
        · exact le_rfl
      · obtain hs | ⟨-, -, rfl⟩ := hs
        · exact absurd (hless _ method hs) (lt_irrefl _)
        · exact le_rfl
    next hne =>
      obtain ⟨rfl, hbest⟩ := h.present id candidate hid
      refine ⟨rfl, hbest.matching, .inl hbest.offered, fun score method hs => ?_, fun method hs => ?_⟩
      · obtain hs | ⟨heq, -⟩ := hs
        · exact hbest.best score method hs
        · exact absurd heq hne
      · obtain hs | ⟨heq, -⟩ := hs
        · exact hbest.first method hs
        · exact absurd heq hne

theorem Collected.keep (h : Collected last offers candidates) {id : EntityId} {old : LinkCandidate}
    (hold : candidates[id]? = some old) {score : Nat} (hle : score ≤ old.score.basisPoints.toNat) {new : LinkMethod}
    (hphase : phase new = last) :
    Collected last (fun other s method => offers other s method ∨ other = id ∧ s = score ∧ method = new)
      candidates where
  tried other s method hs := by
    obtain hs | ⟨-, -, rfl⟩ := hs
    · exact h.tried other s method hs
    · exact hphase.le
  absent other hother s method hs := by
    obtain hs | ⟨rfl, -⟩ := hs
    · exact h.absent other hother s method hs
    · rw [hold] at hother
      cases hother
  present other candidate hother := by
    obtain ⟨rfl, hbest⟩ := h.present other candidate hother
    refine ⟨rfl, hbest.matching, .inl hbest.offered, fun s method hs => ?_, fun method hs => ?_⟩
    · obtain hs | ⟨heq, rfl, -⟩ := hs
      · exact hbest.best s method hs
      · rw [heq] at hother
        rw [← Option.some.inj (hold.symm.trans hother)]
        exact hle
    · obtain hs | ⟨-, -, rfl⟩ := hs
      · exact hbest.first method hs
      · rw [hphase]
        exact h.tried _ _ _ hbest.offered

theorem getAt_nodes (hc : Catalogued unicode nodes linker) {i : Nat} {node : MemoryNode}
    (hn : nodes[i]? = some node) : getAt linker.nodes i = .ok (catalogEntity unicode node) := by
  rw [getAt_eq_ok, hc.entities, List.getElem?_map, hn]
  rfl

/-- The method under which a candidate is kept: a label counts for more in the scope of the input. -/
def tagged (input : ExtractionInput) (node : MemoryNode) (method : LinkMethod) : LinkMethod :=
  if method = .label ∧ ((scopeStep input.repository node.repository 400 (-2000) (-300)).2 ||
    (scopeStep input.branch node.branch 200 (-700) (-100)).2) = true then .scopedLabel else method

theorem matching_tagged {node : MemoryNode} {method : LinkMethod} (h : Matching method) :
    Matching (tagged input node method) := by
  rw [tagged]
  split
  next => exact ⟨by decide, by decide, by decide, by decide⟩
  next => exact h

theorem phase_tagged (input : ExtractionInput) (node : MemoryNode) (method : LinkMethod) :
    phase (tagged input node method) = phase method := by
  rw [tagged]
  split
  next h =>
    rw [h.1]
    rfl
  next => rfl

theorem addCandidate_collected (hc : Catalogued unicode nodes linker) (h : Collected last offers candidates)
    {method : LinkMethod} (hm : Matching method) (hphase : phase method = last) (base : UInt16) {i : Nat}
    {node : MemoryNode} (hn : nodes[i]? = some node) :
    ∃ next, addCandidate linker mention input base method i candidates = .ok next ∧
      Collected last (fun id score m => offers id score m ∨
        id = node.id ∧ score = scoreOf node mention input base ∧ m = tagged input node method) next := by
  obtain ⟨score, hscore⟩ : ∃ score, score =
      min (scopeScore base (catalogEntity unicode node) input).1 mention.confidence.basisPoints := ⟨_, rfl⟩
  have hvalue : score.toNat = scoreOf node mention input base := by
    rw [hscore, toNat_min, catalogEntity, scopeScore_toNat, scoreOf]
  have hbound : Confidence.fromBasisPoints score = .ok ⟨score⟩ := by
    rw [Confidence.fromBasisPoints, if_neg]
    rw [UInt16.lt_iff_toNat_lt, hvalue]
    exact Nat.not_lt.mpr (scoreOf_le node mention input base)
  have hmatching : Matching (tagged input node method) := matching_tagged hm
  have htagged : phase (tagged input node method) = last := (phase_tagged input node method).trans hphase
  rw [← hvalue, addCandidate, getAt_nodes hc hn, ok_bind]
  simp only [← hscore, hbound, ok_bind]
  cases hold : candidates[(catalogEntity unicode node).id]? with
  | none =>
      refine ⟨_, rfl, ?_⟩
      refine @Collected.insert _ _ _ h ⟨node.id, ⟨score⟩, tagged input node method⟩ hmatching htagged fun old ho => ?_
      cases hold.symm.trans ho
  | some existing =>
      by_cases hle : score ≤ existing.score.basisPoints
      · refine ⟨candidates, if_pos hle, h.keep hold ?_ htagged⟩
        exact UInt16.le_iff_toNat_le.mp hle
      · refine ⟨_, if_neg hle, ?_⟩
        refine @Collected.insert _ _ _ h ⟨node.id, ⟨score⟩, tagged input node method⟩ hmatching htagged fun old ho => ?_
        obtain rfl := Option.some.inj (hold.symm.trans ho)
        exact UInt16.lt_iff_toNat_lt.mp (UInt16.not_le.mp hle)

def Offers (nodes : List MemoryNode) (mention : ExtractedEntity) (input : ExtractionInput)
    (condition : MemoryNode → UInt16 → LinkMethod → Prop) (id : EntityId) (score : Nat) (method : LinkMethod) : Prop :=
  ∃ node ∈ nodes, node.id = id ∧ ∃ base given, condition node base given ∧ score = scoreOf node mention input base ∧
    method = tagged input node given

theorem offers_or {condition condition' : MemoryNode → UInt16 → LinkMethod → Prop} {id : EntityId} {score : Nat}
    {method : LinkMethod} :
    Offers nodes mention input (fun node base m => condition node base m ∨ condition' node base m) id score method ↔
      Offers nodes mention input condition id score method ∨ Offers nodes mention input condition' id score method := by
  simp only [Offers, or_and_right, exists_or, and_or_left]

theorem offers_congr {condition condition' : MemoryNode → UInt16 → LinkMethod → Prop} {id : EntityId} {score : Nat}
    {method : LinkMethod} (h : ∀ node base m, condition node base m ↔ condition' node base m) :
    Offers nodes mention input condition id score method ↔ Offers nodes mention input condition' id score method := by
  simp only [Offers, h]

theorem not_offers {condition : MemoryNode → UInt16 → LinkMethod → Prop} {id : EntityId} {score : Nat}
    {method : LinkMethod} (h : ∀ node ∈ nodes, ∀ base m, ¬ condition node base m) :
    ¬ Offers nodes mention input condition id score method := by
  rintro ⟨node, hn, -, base, m, hcondition, -⟩
  exact h node hn base m hcondition

theorem addEach_collected (hc : Catalogued unicode nodes linker) {method : LinkMethod} (hm : Matching method)
    (hphase : phase method = last) (base : UInt16) (positions : List Nat) (hp : ∀ i ∈ positions, i < nodes.length)
    (h : Collected last offers candidates) :
    ∃ next, addEach linker mention input base method positions candidates = .ok next ∧
      Collected last (fun id score m => offers id score m ∨
        ∃ i ∈ positions, ∃ node, nodes[i]? = some node ∧ id = node.id ∧ score = scoreOf node mention input base ∧
          m = tagged input node method) next := by
  induction positions generalizing offers candidates with
  | nil => exact ⟨candidates, rfl, h.congr fun id score m => by simp⟩
  | cons i rest ih =>
      obtain ⟨hi, hrest⟩ := List.forall_mem_cons.mp hp
      have hn := List.getElem?_eq_getElem hi
      obtain ⟨first, hadd, hfirst⟩ := addCandidate_collected hc h hm hphase base hn
      obtain ⟨next, heach, hnext⟩ := ih hrest hfirst
      refine ⟨next, ?_, hnext.congr fun id score m => ?_⟩
      · rw [addEach, hadd, ok_bind, heach]
      · simp only [List.mem_cons, exists_eq_or_imp, or_assoc, hn, Option.some.injEq, exists_eq_left']

theorem addIndexMatches_collected (hc : Catalogued unicode nodes linker) {κ : Type}
    {names : MemoryNode → List κ} {index : κ → Option IndexBucket} (hi : IndexedBy names nodes index) (key : κ)
    {method : LinkMethod} (hm : Matching method) (hphase : phase method = last) (base : UInt16)
    (h : Collected last offers candidates) :
    ∃ next, addIndexMatches linker (index key) mention input base method candidates = .ok next ∧
      Collected last (fun id score m => offers id score m ∨
        Offers nodes mention input (fun node b given => key ∈ names node ∧ b = base ∧ given = method) id score m)
        next := by
  have hpositions : ∀ i ∈ indexes (index key), i < nodes.length := by
    intro i hmem
    obtain ⟨node, hn, -⟩ := (hi key i).mp hmem
    exact (List.getElem?_eq_some_iff.mp hn).1
  obtain ⟨next, heach, hnext⟩ :=
    @addEach_collected _ _ _ mention input _ _ _ hc _ hm hphase base _ hpositions h
  refine ⟨next, ?_, hnext.congr fun id score m => or_congr_right ?_⟩
  · rw [← heach]
    cases index key with
    | none => rfl
    | some bucket =>
        cases bucket with
        | one i =>
            rw [indexes, addEach]
            change addCandidate linker mention input base method i candidates = _
            cases addCandidate linker mention input base method i candidates <;> rfl
        | many is => rfl
  · constructor
    · rintro ⟨i, hmem, node, hn, rfl, hs⟩
      obtain ⟨other, ho, hkey⟩ := (hi key i).mp hmem
      obtain rfl := Option.some.inj (ho.symm.trans hn)
      exact ⟨other, List.mem_of_getElem? hn, rfl, base, method, ⟨hkey, rfl, rfl⟩, hs⟩
    · rintro ⟨node, hmem, rfl, _, _, ⟨hkey, rfl, rfl⟩, hs⟩
      obtain ⟨i, hn⟩ := List.mem_iff_getElem?.mp hmem
      exact ⟨i, (hi key i).mpr ⟨node, hn, hkey⟩, node, hn, rfl, hs⟩

def AliasMatch (unicode : Unicode) (kind : String) (values : List Text) (node : MemoryNode) (base : UInt16)
    (method : LinkMethod) : Prop :=
  (∃ value ∈ values, (kind, normalized unicode value.str) ∈ aliasNames unicode node) ∧ base = 8500 ∧ method = .alias

theorem aliasMatch_cons {kind : String} {value : Text} {rest : List Text} {node : MemoryNode} {base : UInt16}
    {method : LinkMethod} : AliasMatch unicode kind (value :: rest) node base method ↔
      (kind, normalized unicode value.str) ∈ aliasNames unicode node ∧ base = 8500 ∧ method = .alias ∨
        AliasMatch unicode kind rest node base method := by
  simp only [AliasMatch, List.mem_cons, exists_eq_or_imp]
  exact or_and_right

theorem addAliases_collected (hc : Catalogued unicode nodes linker) (kind : String) (values : List Text)
    (h : Collected 1 offers candidates) :
    ∃ next, addAliases unicode linker mention input kind values candidates = .ok next ∧
      Collected 1 (fun id score m => offers id score m ∨
        Offers nodes mention input (AliasMatch unicode kind values) id score m) next := by
  induction values generalizing offers candidates with
  | nil =>
      refine ⟨candidates, rfl, h.congr fun id score m => (or_iff_left (not_offers ?_)).symm⟩
      rintro _ _ _ _ ⟨⟨_, hmem, _⟩, _⟩
      exact absurd hmem List.not_mem_nil
  | cons value rest ih =>
      have hm : Matching .alias := ⟨by decide, by decide, by decide, by decide⟩
      obtain ⟨first, hadd, hfirst⟩ :=
        @addIndexMatches_collected _ _ _ mention input _ _ _ hc _ _ _ hc.byAlias (kind, normalized unicode value.str) _
          hm rfl 8500 h
      obtain ⟨next, hrest, hnext⟩ := ih hfirst
      refine ⟨next, ?_, hnext.congr fun id score m => ?_⟩
      · rw [addAliases, hadd, ok_bind, hrest]
      · rw [or_assoc, ← offers_or]
        exact or_congr_right (offers_congr fun node base m => aliasMatch_cons.symm)

def ExternalMatch (unicode : Unicode) (kind : String) (attributes : List (Text × Text)) (node : MemoryNode)
    (base : UInt16) (method : LinkMethod) : Prop :=
  (∃ entry ∈ attributes, startsWith entry.1 "external_id." ∧
    (kind, entry.1, exactKey unicode entry.2) ∈ externalNames unicode node) ∧ base = 9700 ∧ method = .externalId

theorem externalMatch_cons {kind : String} {entry : Text × Text} {rest : List (Text × Text)} {node : MemoryNode}
    {base : UInt16} {method : LinkMethod} : ExternalMatch unicode kind (entry :: rest) node base method ↔
      (startsWith entry.1 "external_id." ∧
        (kind, entry.1, exactKey unicode entry.2) ∈ externalNames unicode node) ∧ base = 9700 ∧
          method = .externalId ∨ ExternalMatch unicode kind rest node base method := by
  simp only [ExternalMatch, List.mem_cons, exists_eq_or_imp]
  exact or_and_right

theorem addExternalIds_collected (hc : Catalogued unicode nodes linker) (kind : String)
    (attributes : List (Text × Text)) (h : Collected 2 offers candidates) :
    ∃ next, addExternalIds unicode linker mention input kind attributes candidates = .ok next ∧
      Collected 2 (fun id score m => offers id score m ∨
        Offers nodes mention input (ExternalMatch unicode kind attributes) id score m) next := by
  induction attributes generalizing offers candidates with
  | nil =>
      refine ⟨candidates, rfl, h.congr fun id score m => (or_iff_left (not_offers ?_)).symm⟩
      rintro _ _ _ _ ⟨⟨_, hmem, _⟩, _⟩
      exact absurd hmem List.not_mem_nil
  | cons entry rest ih =>
      by_cases hx : startsWith entry.1 "external_id."
      · have hm : Matching .externalId := ⟨by decide, by decide, by decide, by decide⟩
        obtain ⟨first, hadd, hfirst⟩ :=
          @addIndexMatches_collected _ _ _ mention input _ _ _ hc _ _ _ hc.byExternalId
            (kind, entry.1, exactKey unicode entry.2) _ hm rfl 9700 h
        obtain ⟨next, hrest, hnext⟩ := ih hfirst
        refine ⟨next, ?_, hnext.congr fun id score m => ?_⟩
        · rw [addExternalIds, addExternalId, if_pos hx, hadd, ok_bind, hrest]
        · rw [or_assoc, ← offers_or]
          refine or_congr_right (offers_congr fun node base m => ?_)
          rw [externalMatch_cons, and_iff_right hx]
      · obtain ⟨next, hrest, hnext⟩ := ih h
        refine ⟨next, ?_, hnext.congr fun id score m => or_congr_right (offers_congr fun node base m => ?_)⟩
        · rw [addExternalIds, addExternalId, if_neg hx, ok_bind, hrest]
        · rw [externalMatch_cons]
          exact (or_iff_right fun h => hx h.1.1).symm

def HintMatch (unicode : Unicode) (kind : String) (hints : List EntityHint) (node : MemoryNode) (base : UInt16)
    (method : LinkMethod) : Prop :=
  ∃ hint ∈ hints, (hint.entityId = node.id ∧ normalized unicode node.kind.str = kind) ∧
    base = hint.confidence.basisPoints ∧ method = .providerHint

theorem hintMatch_cons {kind : String} {hint : EntityHint} {rest : List EntityHint} {node : MemoryNode}
    {base : UInt16} {method : LinkMethod} : HintMatch unicode kind (hint :: rest) node base method ↔
      (hint.entityId = node.id ∧ normalized unicode node.kind.str = kind) ∧ base = hint.confidence.basisPoints ∧
        method = .providerHint ∨ HintMatch unicode kind rest node base method := by
  simp only [HintMatch, List.mem_cons, exists_eq_or_imp]

theorem addHint_collected (hc : Catalogued unicode nodes linker) (kind : String) (hint : EntityHint)
    (h : Collected 3 offers candidates) :
    ∃ next, addHint linker mention input kind hint candidates = .ok next ∧
      Collected 3 (fun id score m => offers id score m ∨
        Offers nodes mention input (fun node base given =>
          (hint.entityId = node.id ∧ normalized unicode node.kind.str = kind) ∧
            base = hint.confidence.basisPoints ∧ given = .providerHint) id score m) next := by
  rw [addHint]
  cases hid : linker.byId hint.entityId with
  | none =>
      refine ⟨candidates, rfl, h.congr fun id score m => (or_iff_left (not_offers ?_)).symm⟩
      rintro node hmem _ _ ⟨⟨hsame, -⟩, -⟩
      have hsome := (byId_isSome hc hint.entityId).mpr (List.mem_map.mpr ⟨node, hmem, hsame.symm⟩)
      rw [hid] at hsome
      cases hsome
  | some i =>
      obtain ⟨node, hn, hsame⟩ := (hc.byId _ i).mp hid
      -- the node of an identifier is the one at its position
      have honly : ∀ other ∈ nodes, hint.entityId = other.id → other = node := by
        intro other ho heq
        obtain ⟨j, hj⟩ := List.mem_iff_getElem?.mp ho
        have hi := (hc.byId hint.entityId j).mpr ⟨other, hj, heq.symm⟩
        rw [← Option.some.inj (hid.symm.trans hi), hn] at hj
        exact (Option.some.inj hj).symm
      dsimp only
      rw [getAt_nodes hc hn, ok_bind]
      by_cases hk : (catalogEntity unicode node).kind = kind
      · have hm : Matching .providerHint := ⟨by decide, by decide, by decide, by decide⟩
        obtain ⟨next, hadd, hnext⟩ := @addCandidate_collected _ _ _ mention input _ _ _ hc h _ hm rfl
          hint.confidence.basisPoints _ _ hn
        refine ⟨next, ?_, hnext.congr fun id score m => or_congr_right ?_⟩
        · rw [if_pos hk, hadd]
        · constructor
          · rintro ⟨rfl, hs⟩
            exact ⟨node, List.mem_of_getElem? hn, rfl, _, _, ⟨⟨hsame.symm, hk⟩, rfl, rfl⟩, hs⟩
          · rintro ⟨other, ho, rfl, _, _, ⟨⟨heq, -⟩, rfl, rfl⟩, hs⟩
            obtain rfl := honly other ho heq
            exact ⟨rfl, hs⟩
      · refine ⟨candidates, if_neg hk, h.congr fun id score m => (or_iff_left (not_offers ?_)).symm⟩
        rintro other ho _ _ ⟨⟨heq, hkind⟩, -⟩
        obtain rfl := honly other ho heq
        exact hk hkind

theorem addHints_collected (hc : Catalogued unicode nodes linker) (kind : String) (hints : List EntityHint)
    (h : Collected 3 offers candidates) :
    ∃ next, addHints linker mention input kind hints candidates = .ok next ∧
      Collected 3 (fun id score m => offers id score m ∨
        Offers nodes mention input (HintMatch unicode kind hints) id score m) next := by
  induction hints generalizing offers candidates with
  | nil =>
      refine ⟨candidates, rfl, h.congr fun id score m => (or_iff_left (not_offers ?_)).symm⟩
      rintro _ _ _ _ ⟨_, hmem, _⟩
      exact absurd hmem List.not_mem_nil
  | cons hint rest ih =>
      obtain ⟨first, hadd, hfirst⟩ := @addHint_collected _ _ _ mention input _ _ hc kind hint h
      obtain ⟨next, hrest, hnext⟩ := ih hfirst
      refine ⟨next, ?_, hnext.congr fun id score m => ?_⟩
      · rw [addHints, hadd, ok_bind, hrest]
      · rw [or_assoc, ← offers_or]
        exact or_congr_right (offers_congr fun node base m => hintMatch_cons.symm)

/-- How a mention can be found in a node of the catalog: the base score of the match, and its method. -/
def Matches (unicode : Unicode) (mention : ExtractedEntity) (node : MemoryNode) (base : UInt16)
    (method : LinkMethod) : Prop :=
  let kind := normalized unicode mention.kind.str
  ((kind, normalized unicode mention.label.str) = labelName unicode node ∧ base = 9000 ∧ method = .label ∨
    AliasMatch unicode kind (mention.label :: mention.aliases.items) node base method) ∨
    ExternalMatch unicode kind mention.attributes.toList node base method ∨
    HintMatch unicode kind mention.hints.items node base method

structure Ranked (offers : EntityId → Nat → LinkMethod → Prop) (candidates : List LinkCandidate) : Prop where
  best : ∀ c ∈ candidates, BestOffer offers c
  complete : ∀ id score method, offers id score method → ∃ c ∈ candidates, c.entityId = id
  sorted : candidates.Pairwise sortsBefore
  distinct : (candidates.map (·.entityId)).Nodup

def candidateOrder (a b : LinkCandidate) : Ordering :=
  (compare b.score.basisPoints a.score.basisPoints).then (compare a.entityId b.entityId)

instance transCandidateOrder : Std.TransCmp candidateOrder :=
  inferInstanceAs (Std.TransCmp (compareLex (fun a b => compareOn (fun c : LinkCandidate => c.score.basisPoints) b a)
    (compareOn LinkCandidate.entityId)))

instance totalSortsBefore : Std.Total sortsBefore where
  total a b := Bool.or_eq_true _ _ ▸ @isLE_total _ candidateOrder _ a b

instance transSortsBefore : IsTrans LinkCandidate sortsBefore where
  trans _ _ _ hab hbc := @Std.TransCmp.isLE_trans _ candidateOrder _ _ _ _ hab hbc

theorem Collected.ranked (h : Collected last offers candidates) :
    Ranked offers ((valuesOf candidates).insertionSort sortsBefore) where
  best c hc := by
    rw [List.mem_insertionSort, mem_valuesOf] at hc
    obtain ⟨id, hid⟩ := hc
    exact (h.present id c hid).2
  complete id score method hs := by
    cases hid : candidates[id]? with
    | none => exact absurd hs (h.absent id hid score method)
    | some c =>
        refine ⟨c, ?_, (h.present id c hid).1⟩
        rw [List.mem_insertionSort, mem_valuesOf]
        exact ⟨id, hid⟩
  sorted := List.pairwise_insertionSort sortsBefore _
  distinct := by
    rw [((List.perm_insertionSort sortsBefore _).map (·.entityId)).nodup_iff]
    exact nodup_valuesOf fun id c hid => (h.present id c hid).1

theorem Ranked.congr {offers' : EntityId → Nat → LinkMethod → Prop} {ranked : List LinkCandidate}
    (h : Ranked offers ranked) (hiff : ∀ id score method, offers id score method ↔ offers' id score method) :
    Ranked offers' ranked where
  best c hc := (h.best c hc).congr hiff
  complete id score method hs := h.complete id score method ((hiff _ _ _).mpr hs)
  sorted := h.sorted
  distinct := h.distinct

/-- The candidates are the nodes that match, each at the best of its scores. -/
theorem collectCandidates_ranked (hc : Catalogued unicode nodes linker) (mention : ExtractedEntity)
    (input : ExtractionInput) :
    ∃ ranked, collectCandidates unicode linker mention input = .ok ranked ∧
      Ranked (Offers nodes mention input (Matches unicode mention)) ranked := by
  have hlabel : Matching .label := ⟨by decide, by decide, by decide, by decide⟩
  have halias : Matching .alias := ⟨by decide, by decide, by decide, by decide⟩
  obtain ⟨m₁, h₁, hm₁⟩ := @addIndexMatches_collected _ _ _ mention input _ _ _ hc _ _ _ hc.byLabel
    (normalized unicode mention.kind.str, normalized unicode mention.label.str) _ hlabel rfl 9000 collected_empty
  obtain ⟨m₂, h₂, hm₂⟩ := @addIndexMatches_collected _ _ _ mention input _ _ _ hc _ _ _ hc.byAlias
    (normalized unicode mention.kind.str, normalized unicode mention.label.str) _ halias rfl 8500
    (hm₁.later (Nat.le_succ 0))
  obtain ⟨m₃, h₃, hm₃⟩ := @addAliases_collected _ _ _ mention input _ _ hc
    (normalized unicode mention.kind.str) mention.aliases.items hm₂
  obtain ⟨m₄, h₄, hm₄⟩ := @addExternalIds_collected _ _ _ mention input _ _ hc
    (normalized unicode mention.kind.str) mention.attributes.toList (hm₃.later (Nat.le_succ 1))
  obtain ⟨m₅, h₅, hm₅⟩ := @addHints_collected _ _ _ mention input _ _ hc
    (normalized unicode mention.kind.str) mention.hints.items (hm₄.later (Nat.le_succ 2))
  refine ⟨(valuesOf m₅).insertionSort sortsBefore, ?_, hm₅.ranked.congr fun id score method => ?_⟩
  · rw [collectCandidates, h₁, ok_bind, h₂, ok_bind, h₃, ok_bind, h₄, ok_bind, h₅, ok_bind]
  · simp only [false_or, ← offers_or]
    refine offers_congr fun node base m => ?_
    rw [Matches]
    simp only [aliasMatch_cons, List.mem_singleton, or_assoc]

end WeavatrixMemory.Extraction.Candidates
