import WeavatrixMemory.Common
import WeavatrixMemory.Extraction.Candidates

namespace WeavatrixMemory.Extraction.Linking

open Error Identity Domain Key Model Linker Catalog Candidates Outcome

variable {unicode : Unicode} {nodes : List MemoryNode} {linker : EntityLinker} {mention : ExtractedEntity}
  {input : ExtractionInput} {policy : LinkPolicy}

theorem utf8ByteSize_slug_le (unicode : Unicode) (value : String) : (slug unicode value).utf8ByteSize ≤ 128 := by
  rw [slug]
  split
  next => decide
  next =>
    refine (utf8ByteSize_ofList_le _).trans ?_
    rw [List.length_map, List.length_take]
    omega

theorem exists_generatedId (unicode : Unicode) (mention : ExtractedEntity) (input : ExtractionInput) :
    ∃ id, generatedId unicode mention input = .ok id := by
  obtain ⟨hash, hhash⟩ : ∃ hash, hash = stableHash [(input.repository.map Text.str).getD "",
    (input.branch.map Text.str).getD "", normalized unicode mention.kind.str, normalized unicode mention.label.str] :=
      ⟨_, rfl⟩
  have hsize : ("auto:" ++ slug unicode mention.kind.str ++ ":" ++ hex hash).utf8ByteSize < 2 ^ 63 := by
    have hslug := utf8ByteSize_slug_le unicode mention.kind.str
    have hhex := utf8ByteSize_ofList_le (hexDigits 16 hash.toNat)
    rw [length_hexDigits] at hhex
    rw [String.utf8ByteSize_append, String.utf8ByteSize_append, String.utf8ByteSize_append, hex]
    have hauto : "auto:".utf8ByteSize = 5 := by decide
    have hcolon : ":".utf8ByteSize = 1 := by decide
    omega
  obtain ⟨text, htext⟩ : ∃ text : Text, text.str = "auto:" ++ slug unicode mention.kind.str ++ ":" ++ hex hash :=
    ⟨⟨_, hsize⟩, rfl⟩
  have htrimmed : Trimmed text.str := by
    rw [htext]
    refine @trimmed_name _ 'a'
      ("uto:".toList ++ (slug unicode mention.kind.str).toList ++ ":".toList) ?_ (by decide) hash
    rw [String.toList_append, String.toList_append]
    rfl
  refine ⟨⟨text, htrimmed⟩, ?_⟩
  rw [generatedId, ← hhash, formatted_eq_ok.mpr htext, ok_bind, TextId.new, dif_pos htrimmed]

def Reaches (policy : LinkPolicy) (best : LinkCandidate) : Prop :=
  policy.minimumScore.toNat ≤ best.score.basisPoints.toNat

def Clear (policy : LinkPolicy) (best : LinkCandidate) (others : List LinkCandidate) : Prop :=
  ∀ other ∈ others, other.score.basisPoints.toNat + policy.minimumMargin.toNat ≤ best.score.basisPoints.toNat

theorem sortsBefore_score {a b : LinkCandidate} (h : sortsBefore a b) :
    b.score.basisPoints.toNat ≤ a.score.basisPoints.toNat := by
  rw [sortsBefore] at h
  rw [← UInt16.le_iff_toNat_le]
  cases hscore : compare b.score.basisPoints a.score.basisPoints with
  | lt => exact UInt16.le_of_lt (Std.compare_eq_lt.mp hscore)
  | eq =>
      rw [Std.LawfulEqOrd.eq_of_compare hscore]
      exact UInt16.le_refl _
  | gt =>
      rw [hscore] at h
      cases h

theorem clear_iff {best second : LinkCandidate} {rest : List LinkCandidate}
    (hsorted : (best :: second :: rest).Pairwise sortsBefore) : Clear policy best (second :: rest) ↔
      ¬ best.score.basisPoints.toNat - second.score.basisPoints.toNat < policy.minimumMargin.toNat := by
  obtain ⟨hbest, hothers⟩ := List.pairwise_cons.mp hsorted
  have hsecond := sortsBefore_score (hbest second List.mem_cons_self)
  rw [Clear, List.forall_mem_cons]
  constructor
  · rintro ⟨h, -⟩
    omega
  · intro h
    refine ⟨by omega, fun other ho => ?_⟩
    have hother := sortsBefore_score ((List.pairwise_cons.mp hothers).1 other ho)
    omega

inductive Resolved (unicode : Unicode) (nodes : List MemoryNode) (mention : ExtractedEntity) (input : ExtractionInput)
    (policy : LinkPolicy) (candidates : List LinkCandidate) : Result LinkDecision → Prop
  | selected {best : LinkCandidate} {others : List LinkCandidate} (list : candidates = best :: others)
      (reaches : Reaches policy best) (clear : Clear policy best others) :
      Resolved unicode nodes mention input policy candidates
        (.ok (decision mention (some best.entityId) best.score best.method candidates))
  | ambiguous {best : LinkCandidate} {others : List LinkCandidate} (list : candidates = best :: others)
      (reaches : Reaches policy best) (unclear : ¬ Clear policy best others) :
      Resolved unicode nodes mention input policy candidates
        (.ok (decision mention none best.score .ambiguous candidates))
  | unresolved (low : ∀ best ∈ candidates.head?, ¬ Reaches policy best) (kept : policy.createUnmatched = false) :
      Resolved unicode nodes mention input policy candidates (.ok (decision mention none ⟨0⟩ .unresolved candidates))
  | created {id : EntityId} (low : ∀ best ∈ candidates.head?, ¬ Reaches policy best)
      (create : policy.createUnmatched = true) (generated : generatedId unicode mention input = .ok id)
      (fresh : id ∉ nodes.map (·.id)) :
      Resolved unicode nodes mention input policy candidates
        (.ok (decision mention (some id) mention.confidence .created candidates))
  | collides {id : EntityId} (low : ∀ best ∈ candidates.head?, ¬ Reaches policy best)
      (create : policy.createUnmatched = true) (generated : generatedId unicode mention input = .ok id)
      (taken : id ∈ nodes.map (·.id)) :
      Resolved unicode nodes mention input policy candidates
        (.error (.extraction "entity-linker" ("generated entity identifier collides with " ++ id.toString)))

variable {candidates : List LinkCandidate}

theorem unmatched_resolved (hc : Catalogued unicode nodes linker)
    (hlow : ∀ best ∈ candidates.head?, ¬ Reaches policy best) :
    Resolved unicode nodes mention input policy candidates
      (unmatched unicode linker mention input policy candidates) := by
  obtain ⟨id, hid⟩ := exists_generatedId unicode mention input
  rw [unmatched]
  by_cases hcreate : policy.createUnmatched = true
  · rw [if_neg (not_not.mpr hcreate), hid, ok_bind]
    by_cases htaken : id ∈ nodes.map (·.id)
    · rw [throwIf_eq_error.mpr ⟨(byId_isSome hc id).mpr htaken, rfl⟩]
      exact .collides hlow hcreate hid htaken
    · rw [throwIf_of_not fun h => htaken ((byId_isSome hc id).mp h)]
      exact .created hlow hcreate hid htaken
  · rw [if_pos hcreate]
    exact .unresolved hlow (Bool.eq_false_iff.mpr hcreate)

theorem resolveCandidates_resolved (hc : Catalogued unicode nodes linker) (hsorted : candidates.Pairwise sortsBefore) :
    Resolved unicode nodes mention input policy candidates
      (resolveCandidates unicode linker mention input policy candidates) := by
  cases candidates with
  | nil => exact unmatched_resolved hc fun _ h => by cases h
  | cons best others =>
      rw [resolveCandidates]
      by_cases hlow : best.score.basisPoints < policy.minimumScore
      · rw [if_pos hlow]
        refine unmatched_resolved hc fun _ h => ?_
        obtain rfl := Option.some.inj h
        exact Nat.not_le.mpr (UInt16.lt_iff_toNat_lt.mp hlow)
      · rw [if_neg hlow]
        have hreaches : Reaches policy best := Nat.not_lt.mp fun h => hlow (UInt16.lt_iff_toNat_lt.mpr h)
        cases others with
        | nil => exact .selected rfl hreaches fun _ h => absurd h List.not_mem_nil
        | cons second rest =>
            rw [List.head?_cons, Option.any_some]
            have hclear := @clear_iff policy _ _ _ hsorted
            by_cases hmargin : best.score.basisPoints.toNat - second.score.basisPoints.toNat <
              policy.minimumMargin.toNat
            · rw [if_pos (decide_eq_true hmargin)]
              exact .ambiguous rfl hreaches fun h => hclear.mp h hmargin
            · rw [if_neg (fun h => hmargin (of_decide_eq_true h))]
              exact .selected rfl hreaches (hclear.mpr hmargin)

theorem link_eq (hstable : mention.stableId = none) (hscore : policy.minimumScore ≤ 10000)
    (hmargin : policy.minimumMargin ≤ 10000)
    (hcollect : collectCandidates unicode linker mention input = .ok candidates) :
    link unicode linker mention input policy = resolveCandidates unicode linker mention input policy candidates := by
  rw [link, throwIf_of_not (not_or_intro (UInt16.not_lt.mpr hscore) (UInt16.not_lt.mpr hmargin)), ok_bind, hstable]
  dsimp only
  rw [hcollect, ok_bind]

theorem link_eq_stable {id : EntityId} (hstable : mention.stableId = some id) (hscore : policy.minimumScore ≤ 10000)
    (hmargin : policy.minimumMargin ≤ 10000) :
    link unicode linker mention input policy = linkStableId unicode linker mention id := by
  rw [link, throwIf_of_not (not_or_intro (UInt16.not_lt.mpr hscore) (UInt16.not_lt.mpr hmargin)), ok_bind, hstable]

theorem link_policy {d : LinkDecision} (h : link unicode linker mention input policy = .ok d) :
    policy.minimumScore ≤ 10000 ∧ policy.minimumMargin ≤ 10000 := by
  rw [link] at h
  obtain ⟨hchecked, -⟩ := unit_bind_eq_ok.mp h
  rw [throwIf_eq_ok, not_or, UInt16.not_lt, UInt16.not_lt] at hchecked
  exact hchecked

/-- How a mention comes to its decision: by the identifier that it names, or from the candidates. -/
inductive Linked (unicode : Unicode) (nodes : List MemoryNode) (mention : ExtractedEntity) (input : ExtractionInput)
    (policy : LinkPolicy) : LinkDecision → Prop
  | known {node : MemoryNode} (stable : mention.stableId = some node.id) (mem : node ∈ nodes)
      (kind : normalized unicode node.kind.str = normalized unicode mention.kind.str) :
      Linked unicode nodes mention input policy
        (decision mention (some node.id) mention.confidence .stableId [⟨node.id, mention.confidence, .stableId⟩])
  | named {id : EntityId} (stable : mention.stableId = some id) (fresh : id ∉ nodes.map (·.id)) :
      Linked unicode nodes mention input policy (decision mention (some id) mention.confidence .created [])
  | resolved {candidates : List LinkCandidate} {d : LinkDecision} (unnamed : mention.stableId = none)
      (ranked : Ranked (Offers nodes mention input (Matches unicode mention)) candidates)
      (resolved : Resolved unicode nodes mention input policy candidates (.ok d)) :
      Linked unicode nodes mention input policy d

theorem link_linked (hc : Catalogued unicode nodes linker) {d : LinkDecision}
    (h : link unicode linker mention input policy = .ok d) : Linked unicode nodes mention input policy d := by
  obtain ⟨hscore, hmargin⟩ := link_policy h
  cases hstable : mention.stableId with
  | some id =>
      rw [link_eq_stable hstable hscore hmargin, linkStableId] at h
      cases hindex : linker.byId id with
      | some index =>
          obtain ⟨node, hn, rfl⟩ := (hc.byId id index).mp hindex
          rw [hindex] at h
          dsimp only at h
          rw [getAt_nodes hc hn, ok_bind] at h
          obtain ⟨hkind, h⟩ := unit_bind_eq_ok.mp h
          obtain rfl := Except.ok.inj h
          exact .known hstable (List.mem_of_getElem? hn) (not_not.mp (throwIf_eq_ok.mp hkind))
      | none =>
          rw [hindex] at h
          obtain rfl := Except.ok.inj h
          refine .named hstable fun hmem => ?_
          rw [← byId_isSome hc, hindex] at hmem
          cases hmem
  | none =>
      obtain ⟨candidates, hcollect, hranked⟩ := collectCandidates_ranked hc mention input
      have hresolved := @resolveCandidates_resolved _ _ _ mention input policy _ hc hranked.sorted
      rw [← link_eq hstable hscore hmargin hcollect, h] at hresolved
      exact .resolved hstable hranked hresolved

/-- An existing entity is selected, and ambiguity is reported, exactly when the candidates ask for it. -/
structure NeverGuesses (unicode : Unicode) (nodes : List MemoryNode) (mention : ExtractedEntity)
    (input : ExtractionInput) (policy : LinkPolicy) (candidates : List LinkCandidate) (result : Result LinkDecision) :
    Prop where
  resolved : Resolved unicode nodes mention input policy candidates result
  listed : ∀ d, result = .ok d → d.candidates = candidates
  selects : ∀ id ∈ nodes.map (·.id), (∃ d, result = .ok d ∧ d.entityId = some id) ↔
    ∃ best others, candidates = best :: others ∧ best.entityId = id ∧ Reaches policy best ∧ Clear policy best others
  ambiguous : (∃ d, result = .ok d ∧ d.method = .ambiguous ∧ d.entityId = none) ↔
    ∃ best others, candidates = best :: others ∧ Reaches policy best ∧ ¬ Clear policy best others

variable {result : Result LinkDecision}

theorem Resolved.listed (h : Resolved unicode nodes mention input policy candidates result) {d : LinkDecision}
    (hd : result = .ok d) : d.candidates = candidates := by
  cases h with
  | selected | ambiguous | unresolved | created => rw [← Except.ok.inj hd, decision]
  | collides => cases hd

theorem Resolved.selects (h : Resolved unicode nodes mention input policy candidates result) {id : EntityId}
    (hid : id ∈ nodes.map (·.id)) : (∃ d, result = .ok d ∧ d.entityId = some id) ↔
      ∃ best others, candidates = best :: others ∧ best.entityId = id ∧ Reaches policy best ∧
        Clear policy best others := by
  constructor
  · rintro ⟨d, hd, hentity⟩
    cases h with
    | @selected best others hlist hreaches hclear =>
        obtain rfl := Except.ok.inj hd
        exact ⟨best, others, hlist, Option.some.inj hentity, hreaches, hclear⟩
    | ambiguous | unresolved =>
        obtain rfl := Except.ok.inj hd
        cases hentity
    | created _ _ _ hfresh =>
        obtain rfl := Except.ok.inj hd
        rw [← Option.some.inj hentity] at hid
        exact absurd hid hfresh
    | collides => cases hd
  · rintro ⟨best, others, hlist, rfl, hreaches, hclear⟩
    subst hlist
    cases h with
    | selected hlist =>
        obtain ⟨rfl, rfl⟩ := List.cons.inj hlist
        exact ⟨_, rfl, rfl⟩
    | ambiguous hlist _ hunclear =>
        obtain ⟨rfl, rfl⟩ := List.cons.inj hlist
        exact absurd hclear hunclear
    | unresolved hlow | created hlow | collides hlow => exact absurd hreaches (hlow best rfl)

theorem Resolved.isAmbiguous_iff (h : Resolved unicode nodes mention input policy candidates result)
    (hmatching : ∀ c ∈ candidates, Matching c.method) :
    (∃ d, result = .ok d ∧ d.method = .ambiguous ∧ d.entityId = none) ↔
      ∃ best others, candidates = best :: others ∧ Reaches policy best ∧ ¬ Clear policy best others := by
  constructor
  · rintro ⟨d, hd, hmethod, hentity⟩
    cases h with
    | ambiguous hlist hreaches hunclear => exact ⟨_, _, hlist, hreaches, hunclear⟩
    | selected | created =>
        obtain rfl := Except.ok.inj hd
        cases hentity
    | unresolved =>
        obtain rfl := Except.ok.inj hd
        cases hmethod
    | collides => cases hd
  · rintro ⟨best, others, rfl, hreaches, hunclear⟩
    cases h with
    | selected hlist _ hclear =>
        obtain ⟨rfl, rfl⟩ := List.cons.inj hlist
        exact absurd hclear hunclear
    | ambiguous => exact ⟨_, rfl, rfl, rfl⟩
    | unresolved hlow | created hlow | collides hlow => exact absurd hreaches (hlow best rfl)

theorem Resolved.neverGuesses (h : Resolved unicode nodes mention input policy candidates result)
    (hmatching : ∀ c ∈ candidates, Matching c.method) :
    NeverGuesses unicode nodes mention input policy candidates result where
  resolved := h
  listed _ := h.listed
  selects _ := h.selects
  ambiguous := h.isAmbiguous_iff hmatching

theorem method_of_matches {node other : MemoryNode} {base base' : UInt16} {method method' : LinkMethod}
    (h : Matches unicode mention node base method) (h' : Matches unicode mention other base' method')
    (hphase : phase method = phase method') : method = method' := by
  have hmethod {node : MemoryNode} {base : UInt16} {method : LinkMethod}
      (h : Matches unicode mention node base method) :
      method = .label ∨ method = .alias ∨ method = .externalId ∨ method = .providerHint := by
    obtain (⟨-, -, rfl⟩ | ⟨-, -, rfl⟩) | ⟨-, -, rfl⟩ | ⟨_, -, -, -, rfl⟩ := h <;> simp
  obtain rfl | rfl | rfl | rfl := hmethod h <;> obtain rfl | rfl | rfl | rfl := hmethod h' <;>
    first | rfl | cases hphase

theorem method_of_offers (hd : (nodes.map (·.id)).Nodup) {id : EntityId} {score score' : Nat}
    {method method' : LinkMethod} (h : Offers nodes mention input (Matches unicode mention) id score method)
    (h' : Offers nodes mention input (Matches unicode mention) id score' method')
    (hphase : phase method = phase method') :
    method = method' := by
  obtain ⟨node, hn, rfl, base, given, hmatch, -, rfl⟩ := h
  obtain ⟨other, ho, hsame, base', given', hmatch', -, rfl⟩ := h'
  obtain rfl := List.inj_on_of_nodup_map hd ho hn hsame
  rw [phase_tagged, phase_tagged] at hphase
  rw [method_of_matches hmatch hmatch' hphase]

theorem Ranked.unique {offers : EntityId → Nat → LinkMethod → Prop} {xs ys : List LinkCandidate}
    (hx : Ranked offers xs) (hy : Ranked offers ys)
    (hone : ∀ id score score' method method', offers id score method → offers id score' method' →
      phase method = phase method' → method = method') : xs = ys := by
  have hsub {xs ys : List LinkCandidate} (hx : Ranked offers xs) (hy : Ranked offers ys) : xs ⊆ ys := by
    intro c hc
    have hbest := hx.best c hc
    obtain ⟨other, ho, hsame⟩ := hy.complete _ _ _ hbest.offered
    have hother := hy.best other ho
    have hoffered := hother.offered
    rw [hsame] at hoffered
    have hscore : other.score.basisPoints.toNat = c.score.basisPoints.toNat :=
      le_antisymm (hbest.best _ _ hoffered) (hother.best _ _ (hsame ▸ hbest.offered))
    have hphase : phase other.method = phase c.method := by
      refine le_antisymm (hother.first _ ?_) (hbest.first _ ?_)
      · rw [hsame, hscore]
        exact hbest.offered
      · rw [← hscore]
        exact hoffered
    have hmethod := hone _ _ _ _ _ hoffered hbest.offered hphase
    obtain rfl : other = c := by
      cases other
      cases c
      rw [LinkCandidate.mk.injEq]
      exact ⟨hsame, congrArg Confidence.mk (UInt16.toNat_inj.mp hscore), hmethod⟩
    exact ho
  have hperm : xs.Perm ys := by
    rw [List.perm_ext_iff_of_nodup (List.Nodup.of_map _ hx.distinct) (List.Nodup.of_map _ hy.distinct)]
    exact fun c => ⟨fun h => hsub hx hy h, fun h => hsub hy hx h⟩
  refine hperm.eq_of_pairwise (fun a b ha hb hab hba => ?_) hx.sorted hy.sorted
  have heq : candidateOrder a b = .eq := Std.OrientedCmp.isLE_antisymm hab hba
  rw [candidateOrder, Ordering.then_eq_eq] at heq
  exact List.inj_on_of_nodup_map hx.distinct ha (hperm.mem_iff.mpr hb) (Std.LawfulEqOrd.eq_of_compare heq.2)

theorem Admissible.perm {others : List MemoryNode} (h : Admissible nodes) (hperm : nodes.Perm others) :
    Admissible others where
  valid node hn := h.valid node (hperm.mem_iff.mpr hn)
  distinct := (hperm.map (·.id)).nodup_iff.mp h.distinct

theorem matches_reordered {aliases : Vec Text} {hints : Vec EntityHint}
    (haliases : mention.aliases.items.Perm aliases.items)
    (hhints : mention.hints.items.Perm hints.items) {node : MemoryNode} {base : UInt16} {method : LinkMethod} :
    Matches unicode mention node base method ↔
      Matches unicode { mention with aliases := aliases, hints := hints } node base method := by
  simp only [Matches, AliasMatch, HintMatch, List.mem_cons, haliases.mem_iff, hhints.mem_iff]

theorem offers_reordered {others : List MemoryNode} (hperm : nodes.Perm others) {aliases : Vec Text}
    {hints : Vec EntityHint} (haliases : mention.aliases.items.Perm aliases.items)
    (hhints : mention.hints.items.Perm hints.items) (id : EntityId) (score : Nat) (method : LinkMethod) :
    Offers others { mention with aliases := aliases, hints := hints } input
        (Matches unicode { mention with aliases := aliases, hints := hints }) id score method ↔
      Offers nodes mention input (Matches unicode mention) id score method := by
  simp only [Offers, ← matches_reordered haliases hhints, hperm.mem_iff]
  rfl

theorem resolveCandidates_reordered {others : List MemoryNode} {linker' : EntityLinker}
    (hc : Catalogued unicode nodes linker) (hc' : Catalogued unicode others linker') (hperm : nodes.Perm others)
    (aliases : Vec Text) (hints : Vec EntityHint) :
    resolveCandidates unicode linker' { mention with aliases := aliases, hints := hints } input policy candidates =
      resolveCandidates unicode linker mention input policy candidates := by
  have hid (id : EntityId) : (linker'.byId id).isSome = (linker.byId id).isSome := by
    rw [Bool.eq_iff_iff, byId_isSome hc', byId_isSome hc, (hperm.map (·.id)).mem_iff]
  have hunmatched :
      unmatched unicode linker' { mention with aliases := aliases, hints := hints } input policy candidates =
      unmatched unicode linker mention input policy candidates := by
    rw [unmatched, unmatched]
    simp only [hid]
    rfl
  cases candidates with
  | nil => exact hunmatched
  | cons best others =>
      rw [resolveCandidates, resolveCandidates, hunmatched]
      rfl

/-- The candidates of a mention are the entities that match it, an entity is selected only where it stands out, and
no order of nodes, aliases or hints has a say in it. -/
theorem link_never_guesses (unicode : Unicode) (view : MemoryView) (linker : EntityLinker)
    (hlinker : fromView unicode view = .ok linker) (mention : ExtractedEntity) (hstable : mention.stableId = none)
    (input : ExtractionInput) (policy : LinkPolicy) (hscore : policy.minimumScore ≤ 10000)
    (hmargin : policy.minimumMargin ≤ 10000) :
    (∃ candidates, Ranked (Offers view.nodes mention input (Matches unicode mention)) candidates ∧
      NeverGuesses unicode view.nodes mention input policy candidates (link unicode linker mention input policy)) ∧
    ∀ (other : MemoryView) (aliases : Vec Text) (hints : Vec EntityHint), view.nodes.Perm other.nodes →
      mention.aliases.items.Perm aliases.items → mention.hints.items.Perm hints.items →
      ∃ linker', fromView unicode other = .ok linker' ∧
        link unicode linker' { mention with aliases := aliases, hints := hints } input policy =
          link unicode linker mention input policy := by
  have hc := fromView_catalogued hlinker
  have hadmissible := exists_fromView.mp ⟨linker, hlinker⟩
  obtain ⟨candidates, hcollect, hranked⟩ := collectCandidates_ranked hc mention input
  have hlink := link_eq hstable hscore hmargin hcollect
  constructor
  · refine ⟨candidates, hranked, ?_⟩
    rw [hlink]
    exact (resolveCandidates_resolved hc hranked.sorted).neverGuesses fun c hmem => (hranked.best c hmem).matching
  · intro other aliases hints hperm haliases hhints
    obtain ⟨linker', hlinker'⟩ := exists_fromView.mpr (Admissible.perm hadmissible hperm)
    have hc' := fromView_catalogued hlinker'
    refine ⟨linker', hlinker', ?_⟩
    obtain ⟨candidates', hcollect', hranked'⟩ :=
      collectCandidates_ranked hc' { mention with aliases := aliases, hints := hints } input
    have hsame := hranked'.congr (offers_reordered hperm haliases hhints)
    obtain rfl := Ranked.unique hranked hsame fun id score score' method method' h h' =>
      method_of_offers hadmissible.distinct h h'
    have hlink' :=
      @link_eq _ _ { mention with aliases := aliases, hints := hints } _ _ _ hstable hscore hmargin hcollect'
    rw [hlink, hlink', resolveCandidates_reordered hc hc' hperm]

def twins : MemoryView := ⟨[Common.node Common.task, Common.node Common.file], []⟩

def message : ExtractionInput where
  source := ⟨"message:1", by decide⟩
  content := ⟨"Task affects Task", by decide⟩
  occurredAt := Common.ts 1
  recordedAt := Common.ts 1
  agentId := Common.agent
  sessionId := Common.session
  repository := none
  branch := none
  locator := none
  digest := none

theorem source_fits : "source".utf8ByteSize < 2 ^ 63 := by decide

def taskMention : ExtractedEntity where
  localId := ⟨"source", source_fits⟩
  kind := Common.taskKind
  label := Common.taskLabel
  confidence := .certain
  stableId := none
  aliases := ⟨[], by decide⟩
  attributes := ∅
  hints := ⟨[], by decide⟩
  span := none

theorem link_never_guesses_twins : ∃ linker, fromView .ascii twins = .ok linker ∧
    (∃ candidates, Ranked (Offers twins.nodes taskMention message (Matches .ascii taskMention)) candidates ∧
      NeverGuesses .ascii twins.nodes taskMention message .default candidates
        (link .ascii linker taskMention message .default)) ∧
    ∃ linker', fromView .ascii ⟨twins.nodes.reverse, []⟩ = .ok linker' ∧
      link .ascii linker' taskMention message .default = link .ascii linker taskMention message .default := by
  obtain ⟨linker, hlinker⟩ : ∃ linker, fromView .ascii twins = .ok linker := exists_ok_of_isOk (by decide +kernel)
  obtain ⟨hranked, hreordered⟩ := link_never_guesses .ascii twins linker hlinker taskMention rfl message .default
    (by decide) (by decide)
  exact ⟨linker, hlinker, hranked, hreordered ⟨twins.nodes.reverse, []⟩ taskMention.aliases taskMention.hints
    (List.reverse_perm twins.nodes).symm (List.Perm.refl _) (List.Perm.refl _)⟩

end WeavatrixMemory.Extraction.Linking
