import WeavatrixMemory.Context.Dependence
import WeavatrixMemory.Context.Receipt

namespace WeavatrixMemory.Context.Texts

open Error Identity Domain Projection.State Projection.Memory Projection.Invariant Snapshot.Routes Compiler Bundles
open Receipt
open GraphProjection

def nodeTexts (node : MemoryNode) : List String :=
  node.id.text.str :: node.kind.str :: node.label.str :: (node.repository.toList ++ node.branch.toList).map (·.str) ++
    node.attributes.toList.flatMap fun entry => [entry.1.str, entry.2.str]

def evidenceTexts (item : Evidence) : List String :=
  item.kind.str :: item.source.str :: (item.locator.toList ++ item.digest.toList).map (·.str)

def factTexts (fact : MemoryFact) : List String :=
  fact.id.text.str :: fact.source.text.str :: fact.relation.str :: fact.target.text.str ::
    fact.evidence.items.flatMap evidenceTexts

def viewTexts (view : MemoryView) : List String := view.nodes.flatMap nodeTexts ++ view.facts.flatMap factTexts

def weigh (weight : String → Nat) (texts : List String) : Nat := (texts.map weight).sum

variable {weight other : String → Nat} {estimator : TokenEstimator}

@[simp] theorem weigh_nil : weigh weight [] = 0 := rfl

@[simp] theorem weigh_cons (text : String) (texts : List String) :
    weigh weight (text :: texts) = weight text + weigh weight texts := List.sum_cons

@[simp] theorem weigh_append (texts others : List String) :
    weigh weight (texts ++ others) = weigh weight texts + weigh weight others := by
  rw [weigh, List.map_append, List.sum_append]
  rfl

theorem weigh_flatMap {α : Type} (f : α → List String) (xs : List α) :
    weigh weight (xs.flatMap f) = (xs.map fun x => weigh weight (f x)).sum := by
  induction xs with
  | nil => rfl
  | cons x xs ih => rw [List.flatMap_cons, weigh_append, ih, List.map_cons, List.sum_cons]

theorem weigh_map {α : Type} (f : α → String) (xs : List α) :
    weigh weight (xs.map f) = (xs.map fun x => weight (f x)).sum := by
  rw [weigh, List.map_map]
  rfl

theorem weigh_le {factor : Nat} (h : ∀ text, weight text ≤ factor * other text) (texts : List String) :
    weigh weight texts ≤ factor * weigh other texts := by
  induction texts with
  | nil => exact Nat.zero_le _
  | cons text texts ih =>
      rw [weigh_cons, weigh_cons, Nat.mul_add]
      exact Nat.add_le_add (h text) ih

theorem nodeTokens_eq (node : MemoryNode) :
    nodeTokens estimator node = weigh estimator.estimate (nodeTexts node) + 6 := by
  have hattributes : (node.attributes.toList.map fun entry =>
      estimator.estimate entry.1.str + estimator.estimate entry.2.str).sum =
        weigh estimator.estimate (node.attributes.toList.flatMap fun entry => [entry.1.str, entry.2.str]) := by
    rw [weigh_flatMap]
    rfl
  have hscope : ((node.repository.toList ++ node.branch.toList).map fun value => estimator.estimate value.str).sum =
      weigh estimator.estimate ((node.repository.toList ++ node.branch.toList).map (·.str)) := (weigh_map _ _).symm
  rw [nodeTokens, nodeTexts]
  change _ + (node.attributes.toList.map fun entry =>
    estimator.estimate entry.1.str + estimator.estimate entry.2.str).sum + 6 = _
  rw [hattributes, hscope]
  simp only [weigh_cons, weigh_append, List.cons_append]
  omega

theorem factTokens_eq (fact : MemoryFact) :
    factTokens estimator fact = weigh estimator.estimate (factTexts fact) + 16 := by
  have hevidence : weigh estimator.estimate (fact.evidence.items.flatMap evidenceTexts) =
      (fact.evidence.items.map fun item => estimator.estimate item.kind.str + estimator.estimate item.source.str +
        ((item.locator.toList ++ item.digest.toList).map fun value => estimator.estimate value.str).sum).sum := by
    rw [weigh_flatMap]
    refine congrArg List.sum (List.map_congr_left fun item _ => ?_)
    rw [evidenceTexts, weigh_cons, weigh_cons, weigh_map, Nat.add_assoc]
  rw [factTokens, factTexts, ← hevidence]
  simp only [weigh_cons]
  omega

theorem bytes_le (bytes : BytesTokenEstimator) (text : String) :
    text.utf8ByteSize ≤ bytes.bytesPerToken * bytes.estimator.estimate text := by
  have hceil : text.utf8ByteSize ≤ bytes.bytesPerToken *
      ((text.utf8ByteSize + (bytes.bytesPerToken - 1)) / bytes.bytesPerToken) := by
    have hpos := Nat.pos_of_ne_zero bytes.positive
    have hdiv := Nat.div_add_mod (text.utf8ByteSize + (bytes.bytesPerToken - 1)) bytes.bytesPerToken
    have hmod := Nat.mod_lt (text.utf8ByteSize + (bytes.bytesPerToken - 1)) hpos
    omega
  exact hceil.trans (Nat.mul_le_mul_left _ (Nat.le_max_left _ _))

theorem viewTokens_texts (view : MemoryView) :
    (view.nodes.map (nodeTokens estimator)).sum + (view.facts.map (factTokens estimator)).sum =
      weigh estimator.estimate (viewTexts view) + 6 * view.nodes.length + 16 * view.facts.length := by
  have hsum {α : Type} (f : α → Nat) (texts : α → List String) (fee : Nat)
      (h : ∀ a, f a = weigh estimator.estimate (texts a) + fee) (xs : List α) :
      (xs.map f).sum = weigh estimator.estimate (xs.flatMap texts) + fee * xs.length := by
    rw [weigh_flatMap]
    induction xs with
    | nil => rfl
    | cons x xs ih =>
        rw [List.map_cons, List.sum_cons, List.map_cons, List.sum_cons, ih, h, List.length_cons, Nat.mul_succ]
        omega
  rw [hsum _ nodeTexts 6 nodeTokens_eq, hsum _ factTexts 16 factTokens_eq, viewTexts, weigh_append]
  omega

/-- Under the estimator by bytes, a budget of tokens bounds the bytes of all texts in a context. -/
theorem compile_bounds_bytes {handed : List MemoryFact} {p : MemoryProjection} (hp : Obtained handed p)
    (crate : GraphCrate) (bytes : BytesTokenEstimator) (request : ContextRequest) (bundle : ContextBundle crate.Graph)
    (h : compile (projectGraph crate) bytes.estimator p request = .ok bundle) :
    weigh String.utf8ByteSize (viewTexts bundle.view) +
        bytes.bytesPerToken * (6 * bundle.view.nodes.length + 16 * bundle.view.facts.length) ≤
      bytes.bytesPerToken * request.tokenBudget := by
  obtain ⟨found, candidates, hcompiled⟩ := exists_compiled hp.valid.1 h
  have hwithin := viewOf_within hcompiled.prepared hcompiled.spends_all
  rw [← hcompiled.view_eq] at hwithin
  have htexts := weigh_le (bytes_le bytes) (viewTexts bundle.view)
  have htokens := hwithin.tokens
  rw [viewTokens_texts, Nat.add_assoc] at htokens
  calc _ ≤ bytes.bytesPerToken * weigh bytes.estimator.estimate (viewTexts bundle.view) +
        bytes.bytesPerToken * (6 * bundle.view.nodes.length + 16 * bundle.view.facts.length) :=
        Nat.add_le_add_right htexts _
    _ = bytes.bytesPerToken * (weigh bytes.estimator.estimate (viewTexts bundle.view) +
        (6 * bundle.view.nodes.length + 16 * bundle.view.facts.length)) := (Nat.mul_add _ _ _).symm
    _ ≤ bytes.bytesPerToken * request.tokenBudget := Nat.mul_le_mul_left _ htokens

theorem compile_bounds_bytes_task : ∃ bundle, compile (projectGraph lenientCrate) BytesTokenEstimator.default.estimator
      (applyAll ⟨1, 2⟩ Dependence.taskFirst) Neighborhood.aroundTask = .ok bundle ∧
    weigh String.utf8ByteSize (viewTexts bundle.view) +
      4 * (6 * bundle.view.nodes.length + 16 * bundle.view.facts.length) ≤ 4 * 100 := by
  have hobtained : Obtained (recordedIn Dependence.taskFirst) (applyAll ⟨1, 2⟩ Dependence.taskFirst) :=
    obtained_of_allAccepted (by decide +kernel) rfl
  obtain ⟨bundle, hbundle⟩ : ∃ bundle, compile (projectGraph lenientCrate) BytesTokenEstimator.default.estimator
      (applyAll ⟨1, 2⟩ Dependence.taskFirst) Neighborhood.aroundTask = .ok bundle :=
    exists_ok_of_isOk (by decide +kernel)
  exact ⟨bundle, hbundle, compile_bounds_bytes hobtained lenientCrate .default _ bundle hbundle⟩

end WeavatrixMemory.Context.Texts
