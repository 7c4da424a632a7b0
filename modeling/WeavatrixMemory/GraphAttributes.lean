import Mathlib.Data.List.Forall2
import WeavatrixMemory.Common
import WeavatrixMemory.GraphProjection

namespace WeavatrixMemory.GraphAttributes

open Error Identity Domain GraphProjection

/-- What can be read of the nodes of the graph crate. -/
structure Reading (crate : GraphCrate) where
  nodes : crate.Graph → List crate.Node
  bare : crate.Node → crate.Node
  attributeOf : crate.Node → String → Option AttributeValue

/-- A node is what `new` makes and a map of attributes, in which the last write wins. A graph keeps its
nodes. -/
structure Reading.Lawful {crate : GraphCrate} (reading : Reading crate) : Prop where
  bare_new : ∀ id label kind made, crate.newNode id label kind = .ok made → reading.bare made = made
  bare_set : ∀ made key value, reading.bare (crate.nodeAttribute made key value) = reading.bare made
  attributeOf_new : ∀ id label kind made key, crate.newNode id label kind = .ok made →
    reading.attributeOf made key = none
  attributeOf_set : ∀ made key value other, reading.attributeOf (crate.nodeAttribute made key value) other =
    if other = key then some value else reading.attributeOf made other
  ext : ∀ made made', reading.bare made = reading.bare made' →
    (∀ key, reading.attributeOf made key = reading.attributeOf made' key) → made = made'
  nodes_graph : ∀ nodes edges graph, crate.tryFromSortedNodes nodes edges = .ok graph → reading.nodes graph = nodes

def repositoryKey : Text := ⟨"repository", by decide⟩

def branchKey : Text := ⟨"branch", by decide⟩

/-- The attribute of the graph node under which an attribute of the memory node is written. -/
def memoryKey (key : Text) : String := "memory." ++ key.str

def text (value : Text) : AttributeValue := .string value.str

def scopeOf (node : MemoryNode) (key : Text) : Option Text :=
  if key = repositoryKey then node.repository else if key = branchKey then node.branch else none

structure Keeps {crate : GraphCrate} (reading : Reading crate) (node : MemoryNode) (made : crate.Node) : Prop where
  repository : reading.attributeOf made "memory.repository" = node.repository.map text
  branch : reading.attributeOf made "memory.branch" = node.branch.map text
  attributes : ∀ key value, node.attributes[key]? = some value →
    reading.attributeOf made (memoryKey key) = some (text value)

/-- No attribute of the node contradicts its repository or its branch. -/
def Unshadowed (node : MemoryNode) : Prop :=
  (∀ value, node.attributes[repositoryKey]? = some value → node.repository = some value) ∧
  ∀ value, node.attributes[branchKey]? = some value → node.branch = some value

def bareNode (crate : GraphCrate) (node : MemoryNode) : Result crate.Node := do
  let kind ← ofGraph (crate.nodeKind node.kind.str)
  ofGraph (crate.newNode node.id.text.str node.label.str kind)

/-- The nodes differ in nothing but whether an attribute repeats the repository or the branch. -/
structure Respelled (crate : GraphCrate) (node node' : MemoryNode) : Prop where
  bare : bareNode crate node = bareNode crate node'
  repository : node.repository = node'.repository
  branch : node.branch = node'.branch
  others : ∀ key, key ≠ repositoryKey → key ≠ branchKey → node.attributes[key]? = node'.attributes[key]?
  differ : node.attributes ≠ node'.attributes

/-- Two graphs keep what two views say of their nodes, and tell apart what differs. -/
structure Faithful {crate : GraphCrate} (reading : Reading crate) (view view' : MemoryView)
    (graph graph' : crate.Graph) : Prop where
  keeps : List.Forall₂ (Keeps reading) view.nodes (reading.nodes graph)
  keeps' : List.Forall₂ (Keeps reading) view'.nodes (reading.nodes graph')
  distinguishes : ∀ node node' made, (node, made) ∈ view.nodes.zip (reading.nodes graph) →
    (node', made) ∈ view'.nodes.zip (reading.nodes graph') →
    node.repository = node'.repository ∧ node.branch = node'.branch ∧ node.attributes = node'.attributes

variable {crate : GraphCrate} {reading : Reading crate}

theorem memoryKey_inj {a b : Text} : memoryKey a = memoryKey b ↔ a = b := by
  constructor
  · intro h
    have hlist := congrArg String.toList h
    rw [memoryKey, memoryKey, String.toList_append, String.toList_append, List.append_cancel_left_eq] at hlist
    exact Text.ext (String.toList_inj.mp hlist)
  · rintro rfl
    rfl

theorem text_inj {a b : Option Text} : a.map text = b.map text ↔ a = b := by
  have hinjective : Function.Injective text := fun x y h => Text.ext (AttributeValue.string.inj h)
  exact (Option.map_injective hinjective).eq_iff

theorem attributeOf_foldl (hreading : reading.Lawful) {entries : List (Text × Text)} (made : crate.Node) (name : String)
    (hkeys : (entries.map (·.1)).Nodup) :
    let written := entries.foldl (fun made entry => crate.nodeAttribute made (memoryKey entry.1) (text entry.2)) made
    (∀ entry ∈ entries, memoryKey entry.1 = name → reading.attributeOf written name = some (text entry.2)) ∧
    ((∀ entry ∈ entries, memoryKey entry.1 ≠ name) →
      reading.attributeOf written name = reading.attributeOf made name) := by
  induction entries generalizing made with
  | nil => exact ⟨fun _ h => absurd h List.not_mem_nil, fun _ => rfl⟩
  | cons first rest ih =>
      obtain ⟨hnew, hrest⟩ := List.nodup_cons.mp hkeys
      obtain ⟨hfound, hmissed⟩ := ih (crate.nodeAttribute made (memoryKey first.1) (text first.2)) hrest
      constructor
      · intro entry hentry hname
        obtain rfl | hentry := List.mem_cons.mp hentry
        · have hlater (other : Text × Text) (hother : other ∈ rest) : memoryKey other.1 ≠ name := by
            intro hsame
            have hkey : other.1 = entry.1 := memoryKey_inj.mp (hsame.trans hname.symm)
            exact hnew (List.mem_map.mpr ⟨other, hother, hkey⟩)
          exact (hmissed hlater).trans ((hreading.attributeOf_set _ _ _ _).trans (if_pos hname.symm))
        · exact hfound entry hentry hname
      · intro hnone
        obtain ⟨hfirst, hothers⟩ := List.forall_mem_cons.mp hnone
        exact (hmissed hothers).trans ((hreading.attributeOf_set _ _ _ _).trans (if_neg hfirst.symm))

def withScope (crate : GraphCrate) (node : MemoryNode) (start : crate.Node) : crate.Node :=
  let made := node.repository.elim start fun repository =>
    crate.nodeAttribute start "memory.repository" (text repository)
  node.branch.elim made fun branch => crate.nodeAttribute made "memory.branch" (text branch)

theorem projectNode_eq_ok {node : MemoryNode} {made : crate.Node} (h : projectNode crate node = .ok made) :
    ∃ start, bareNode crate node = .ok start ∧ made = node.attributes.toList.foldl
      (fun made entry => crate.nodeAttribute made (memoryKey entry.1) (text entry.2)) (withScope crate node start) := by
  obtain ⟨kind, hkind, h⟩ := bind_eq_ok.mp h
  obtain ⟨start, hstart, h⟩ := bind_eq_ok.mp h
  refine ⟨start, ?_, (Except.ok.inj h).symm⟩
  rw [bareNode, hkind, ok_bind, hstart]

theorem ofGraph_eq_ok {α : Type} {answer : Except String α} {a : α} : ofGraph answer = .ok a ↔ answer = .ok a := by
  cases answer with
  | ok b => simp [ofGraph]
  | error reason => simp [ofGraph]

theorem attributeOf_withScope (hreading : reading.Lawful) {node : MemoryNode} {start : crate.Node}
    (hstart : bareNode crate node = .ok start) :
    reading.bare (withScope crate node start) = start ∧
    (∀ key, reading.attributeOf (withScope crate node start) (memoryKey key) = (scopeOf node key).map text) ∧
    ∀ name, (∀ key, memoryKey key ≠ name) → reading.attributeOf (withScope crate node start) name = none := by
  obtain ⟨kind, -, hnew⟩ := bind_eq_ok.mp hstart
  have hbare := hreading.bare_new _ _ _ _ (ofGraph_eq_ok.mp hnew)
  have hnone (name : String) := hreading.attributeOf_new _ _ _ _ name (ofGraph_eq_ok.mp hnew)
  have hrepository : "memory.repository" = memoryKey repositoryKey := rfl
  have hbranch : "memory.branch" = memoryKey branchKey := rfl
  have hne : branchKey ≠ repositoryKey := by decide
  simp only [withScope, hrepository, hbranch]
  refine ⟨?_, fun key => ?_, fun name hname => ?_⟩
  · cases node.branch <;> cases node.repository <;>
      simp only [Option.elim_none, Option.elim_some, hreading.bare_set, hbare]
  · rw [scopeOf]
    by_cases hr : key = repositoryKey
    · cases node.branch <;> cases node.repository <;>
        simp [hreading.attributeOf_set, hnone, memoryKey_inj, hr, hne.symm]
    · by_cases hb : key = branchKey
      · cases node.branch <;> cases node.repository <;>
          simp [hreading.attributeOf_set, hnone, memoryKey_inj, hb, hne]
      · cases node.branch <;> cases node.repository <;>
          simp [hreading.attributeOf_set, hnone, memoryKey_inj, hr, hb]
  · have hr := (hname repositoryKey).symm
    have hb := (hname branchKey).symm
    cases node.branch <;> cases node.repository <;> simp [hreading.attributeOf_set, hnone, hr, hb]

theorem bare_foldl (hreading : reading.Lawful) (entries : List (Text × Text)) (made : crate.Node) :
    reading.bare (entries.foldl (fun made entry => crate.nodeAttribute made (memoryKey entry.1) (text entry.2)) made) =
      reading.bare made := by
  induction entries generalizing made with
  | nil => rfl
  | cons entry rest ih => exact (ih _).trans (hreading.bare_set _ _ _)

structure Reads (reading : Reading crate) (node : MemoryNode) (made : crate.Node) : Prop where
  bare : bareNode crate node = .ok (reading.bare made)
  attributeOf : ∀ key, reading.attributeOf made (memoryKey key) = (node.attributes[key]?.or (scopeOf node key)).map text
  others : ∀ name, (∀ key, memoryKey key ≠ name) → reading.attributeOf made name = none

theorem projectNode_reads (hreading : reading.Lawful) {node : MemoryNode} {made : crate.Node}
    (h : projectNode crate node = .ok made) : Reads reading node made := by
  obtain ⟨start, hstart, rfl⟩ := projectNode_eq_ok h
  obtain ⟨hbare, hscope, hothers⟩ := attributeOf_withScope hreading hstart
  have hwritten (name : String) :=
    attributeOf_foldl hreading (withScope crate node start) name (nodup_keys node.attributes)
  refine ⟨?_, fun key => ?_, fun name hname => ?_⟩
  · rw [bare_foldl hreading, hbare, hstart]
  · cases hvalue : node.attributes[key]? with
    | some value =>
        have hentry := Std.ExtTreeMap.mem_toList_iff_getElem?_eq_some.mpr hvalue
        exact (hwritten (memoryKey key)).1 (key, value) hentry rfl
    | none =>
        refine ((hwritten (memoryKey key)).2 fun entry hentry hsame => ?_).trans (hscope key)
        have hfound := Std.ExtTreeMap.mem_toList_iff_getElem?_eq_some.mp hentry
        rw [memoryKey_inj.mp hsame, hvalue] at hfound
        cases hfound
  · exact ((hwritten name).2 fun entry _ => hname entry.1).trans (hothers name hname)

theorem Reads.keeps_iff {node : MemoryNode} {made : crate.Node} (h : Reads reading node made) :
    Keeps reading node made ↔ Unshadowed node := by
  have hrepository : reading.attributeOf made "memory.repository" =
      (node.attributes[repositoryKey]?.or node.repository).map text := h.attributeOf repositoryKey
  have hbranch : reading.attributeOf made "memory.branch" = (node.attributes[branchKey]?.or node.branch).map text :=
    h.attributeOf branchKey
  have hor (written scope : Option Text) :
      written.or scope = scope ↔ ∀ value, written = some value → scope = some value := by
    cases written with
    | none => simp
    | some value =>
        simp only [Option.some_or, Option.some.injEq, forall_eq']
        exact eq_comm
  constructor
  · intro hkeeps
    have hr := hkeeps.repository
    have hb := hkeeps.branch
    rw [hrepository, text_inj, hor] at hr
    rw [hbranch, text_inj, hor] at hb
    exact ⟨hr, hb⟩
  · rintro ⟨hr, hb⟩
    refine ⟨?_, ?_, fun key value hvalue => ?_⟩
    · rw [hrepository, text_inj, hor]
      exact hr
    · rw [hbranch, text_inj, hor]
      exact hb
    · rw [h.attributeOf, hvalue]
      rfl

theorem projectNodes_eq_ok {nodes : List MemoryNode} {ids : BTreeMap EntityId crate.NodeId}
    {made : List crate.Node × BTreeMap EntityId crate.NodeId} (h : projectNodes crate nodes ids = .ok made) :
    List.Forall₂ (fun node made => projectNode crate node = .ok made) nodes made.1 := by
  induction nodes generalizing ids made with
  | nil =>
      obtain rfl := Except.ok.inj h
      exact .nil
  | cons node rest ih =>
      obtain ⟨first, hfirst, h⟩ := bind_eq_ok.mp h
      obtain ⟨others, hothers, h⟩ := bind_eq_ok.mp h
      obtain rfl := Except.ok.inj h
      exact .cons hfirst (ih hothers)

theorem projectGraph_reads (hreading : reading.Lawful) {view : MemoryView} {graph : crate.Graph}
    (h : projectGraph crate view = .ok graph) : List.Forall₂ (Reads reading) view.nodes (reading.nodes graph) := by
  obtain ⟨made, hmade, h⟩ := bind_eq_ok.mp h
  obtain ⟨edges, -, h⟩ := bind_eq_ok.mp h
  rw [hreading.nodes_graph _ _ _ (ofGraph_eq_ok.mp h)]
  exact (projectNodes_eq_ok hmade).imp fun _ _ => projectNode_reads hreading

theorem exists_mem_zip {α β : Type} {R : α → β → Prop} {as : List α} {bs : List β} (h : List.Forall₂ R as bs) {a : α}
    (ha : a ∈ as) : ∃ b, (a, b) ∈ as.zip bs := by
  obtain ⟨i, hi, rfl⟩ := List.mem_iff_getElem.mp ha
  have hj : i < bs.length := h.length_eq ▸ hi
  refine ⟨bs[i], List.mem_iff_getElem.mpr ⟨i, ?_, List.getElem_zip⟩⟩
  rw [List.length_zip]
  exact lt_min hi hj

theorem forall₂_keeps_iff {nodes : List MemoryNode} {mades : List crate.Node}
    (h : List.Forall₂ (Reads reading) nodes mades) :
    List.Forall₂ (Keeps reading) nodes mades ↔ ∀ node ∈ nodes, Unshadowed node := by
  induction h with
  | nil => simp
  | cons hreads _ ih => rw [List.forall₂_cons, hreads.keeps_iff, ih, List.forall_mem_cons]

theorem Respelled.same (hreading : reading.Lawful) {node node' : MemoryNode} {made made' : crate.Node}
    (h : Respelled crate node node') (hnode : Unshadowed node) (hnode' : Unshadowed node')
    (hreads : Reads reading node made) (hreads' : Reads reading node' made') : made = made' := by
  have hscope (node : MemoryNode) (hnode : Unshadowed node) (key : Text)
      (hkey : key = repositoryKey ∨ key = branchKey) :
      node.attributes[key]?.or (scopeOf node key) = scopeOf node key := by
    have hor (value : Text) (hvalue : node.attributes[key]? = some value) : scopeOf node key = some value := by
      obtain rfl | rfl := hkey
      · exact hnode.1 value hvalue
      · exact hnode.2 value hvalue
    cases hvalue : node.attributes[key]? with
    | none => rfl
    | some value => rw [hor value hvalue, Option.some_or]
  have hsame (key : Text) :
      node.attributes[key]?.or (scopeOf node key) = node'.attributes[key]?.or (scopeOf node' key) := by
    have hscopes : scopeOf node key = scopeOf node' key := by rw [scopeOf, scopeOf, h.repository, h.branch]
    by_cases hkey : key = repositoryKey ∨ key = branchKey
    · rw [hscope node hnode key hkey, hscope node' hnode' key hkey, hscopes]
    · obtain ⟨hr, hb⟩ := not_or.mp hkey
      rw [h.others key hr hb, hscopes]
  apply hreading.ext
  · exact Except.ok.inj (hreads.bare.symm.trans (h.bare.trans hreads'.bare))
  · intro name
    by_cases hname : ∃ key, memoryKey key = name
    · obtain ⟨key, rfl⟩ := hname
      rw [hreads.attributeOf, hreads'.attributeOf, hsame]
    · have hnot := not_exists.mp hname
      rw [hreads.others name hnot, hreads'.others name hnot]

theorem respelled_of_same {node node' : MemoryNode} {made : crate.Node} (hreads : Reads reading node made)
    (hreads' : Reads reading node' made) (hkeeps : Keeps reading node made) (hkeeps' : Keeps reading node' made)
    (hdiffer : node.attributes ≠ node'.attributes) : Respelled crate node node' where
  bare := hreads.bare.trans hreads'.bare.symm
  repository := text_inj.mp (hkeeps.repository.symm.trans hkeeps'.repository)
  branch := text_inj.mp (hkeeps.branch.symm.trans hkeeps'.branch)
  others key hr hb := by
    have hscope (node : MemoryNode) : scopeOf node key = none := by rw [scopeOf, if_neg hr, if_neg hb]
    have hsame := (hreads.attributeOf key).symm.trans (hreads'.attributeOf key)
    rwa [hscope, hscope, Option.or_none, Option.or_none, text_inj] at hsame
  differ := hdiffer

theorem projection_faithful_iff (hreading : reading.Lawful) {view view' : MemoryView} {graph graph' : crate.Graph}
    (h : projectGraph crate view = .ok graph) (h' : projectGraph crate view' = .ok graph') :
    Faithful reading view view' graph graph' ↔
      (∀ node ∈ view.nodes, Unshadowed node) ∧ (∀ node ∈ view'.nodes, Unshadowed node) ∧
      ∀ node ∈ view.nodes, ∀ node' ∈ view'.nodes, ¬ Respelled crate node node' := by
  have hreads := projectGraph_reads hreading h
  have hreads' := projectGraph_reads hreading h'
  have hkeeps := forall₂_keeps_iff hreads
  have hkeeps' := forall₂_keeps_iff hreads'
  constructor
  · intro hfaithful
    have hnodes := hkeeps.mp hfaithful.keeps
    have hnodes' := hkeeps'.mp hfaithful.keeps'
    refine ⟨hnodes, hnodes', fun node hnode node' hnode' hrespelled => ?_⟩
    obtain ⟨made, hmade⟩ := exists_mem_zip hreads hnode
    obtain ⟨made', hmade'⟩ := exists_mem_zip hreads' hnode'
    obtain rfl := hrespelled.same hreading (hnodes node hnode) (hnodes' node' hnode')
      ((List.forall₂_iff_zip.mp hreads).2 hmade) ((List.forall₂_iff_zip.mp hreads').2 hmade')
    exact hrespelled.differ (hfaithful.distinguishes node node' made hmade hmade').2.2
  · rintro ⟨hnodes, hnodes', hrespelled⟩
    have hk := hkeeps.mpr hnodes
    have hk' := hkeeps'.mpr hnodes'
    refine ⟨hk, hk', fun node node' made hmade hmade' => ?_⟩
    have hreadsNode := (List.forall₂_iff_zip.mp hreads).2 hmade
    have hreadsNode' := (List.forall₂_iff_zip.mp hreads').2 hmade'
    have hkeepsNode := (List.forall₂_iff_zip.mp hk).2 hmade
    have hkeepsNode' := (List.forall₂_iff_zip.mp hk').2 hmade'
    refine ⟨text_inj.mp (hkeepsNode.repository.symm.trans hkeepsNode'.repository),
      text_inj.mp (hkeepsNode.branch.symm.trans hkeepsNode'.branch), ?_⟩
    by_contra hdiffer
    exact hrespelled node (List.of_mem_zip hmade).1 node' (List.of_mem_zip hmade').1
      (respelled_of_same hreadsNode hreadsNode' hkeepsNode hkeepsNode' hdiffer)

structure MapNode where
  id : String
  label : String
  kind : String
  attributes : String → Option AttributeValue

/-- A graph crate that takes every kind and every graph. -/
def mapCrate : GraphCrate where
  NodeKind := String
  EdgeKind := String
  EvidenceKind := String
  NodeId := String
  Node := MapNode
  Provenance := Unit
  Edge := Unit
  Graph := List MapNode
  nodeKind kind := .ok kind
  edgeKind kind := .ok kind
  evidenceKind kind := .ok kind
  newNode id label kind := .ok ⟨id, label, kind, fun _ => none⟩
  nodeId made := made.id
  nodeAttribute made key value := { made with attributes := Function.update made.attributes key (some value) }
  newProvenance _ _ _ := .ok ()
  withDetail provenance _ := provenance
  newEdge _ _ _ _ := ()
  edgeAttribute edge _ _ := edge
  tryFromSortedNodes nodes _ := .ok nodes

def mapReading : Reading mapCrate where
  nodes graph := graph
  bare made := { made with attributes := fun _ => none }
  attributeOf made key := made.attributes key

theorem mapReading_lawful : mapReading.Lawful where
  bare_new _ _ _ _ h := by
    obtain rfl := Except.ok.inj h
    rfl
  bare_set _ _ _ := rfl
  attributeOf_new _ _ _ _ _ h := by
    obtain rfl := Except.ok.inj h
    rfl
  attributeOf_set made key value other := Function.update_apply _ _ _ _
  ext made made' hbare hattributes := by
    obtain ⟨id, label, kind, attributes⟩ := made
    obtain ⟨id', label', kind', attributes'⟩ := made'
    obtain ⟨rfl, rfl, rfl, -⟩ := MapNode.mk.inj hbare
    exact congrArg (MapNode.mk id label kind) (funext hattributes)
  nodes_graph _ _ _ h := (Except.ok.inj h).symm

def forked : Text := ⟨"fork", by decide⟩

def scopedNode (key : Text) : MemoryNode :=
  { Common.node Common.task with
    repository := some ⟨"core", by decide⟩
    attributes := (∅ : BTreeMap Text Text).insert key forked
    attributesFit := Std.ExtTreeMap.size_insert_le.trans_lt (by decide) }

theorem scopedNode_attributes (key other : Text) :
    (scopedNode key).attributes[other]? = if other = key then some forked else none := by
  rw [scopedNode, getElem?_insert]
  rfl

def languageKey : Text := ⟨"language", by decide⟩

def ownerKey : Text := ⟨"owner", by decide⟩

theorem unshadowed_scopedNode {key : Text} (hr : repositoryKey ≠ key) (hb : branchKey ≠ key) :
    Unshadowed (scopedNode key) := by
  simp [Unshadowed, scopedNode_attributes, hr, hb]

/-- The same node, on a branch of no repository. -/
def branchNode : MemoryNode := { scopedNode languageKey with repository := none, branch := some forked }

def languageView : MemoryView := ⟨[scopedNode languageKey], []⟩

def branchView : MemoryView := ⟨[branchNode, { scopedNode ownerKey with id := Common.file }], []⟩

theorem projection_faithful_iff_branches : ∃ graph graph',
    projectGraph mapCrate languageView = .ok graph ∧ projectGraph mapCrate branchView = .ok graph' ∧
    Faithful mapReading languageView branchView graph graph' := by
  have hlanguage : Unshadowed (scopedNode languageKey) := unshadowed_scopedNode (by decide) (by decide)
  have howner : Unshadowed (scopedNode ownerKey) := unshadowed_scopedNode (by decide) (by decide)
  refine ⟨_, _, rfl, rfl, (projection_faithful_iff mapReading_lawful rfl rfl).mpr ⟨?_, ?_, ?_⟩⟩
  · exact List.forall_mem_singleton.mpr hlanguage
  · refine List.forall_mem_cons.mpr ⟨⟨?_, ?_⟩, List.forall_mem_singleton.mpr howner⟩
    · simp [branchNode, scopedNode_attributes, show repositoryKey ≠ languageKey by decide]
    · simp [branchNode, scopedNode_attributes, show branchKey ≠ languageKey by decide]
  · intro node hnode node' hnode' hrespelled
    obtain rfl := List.mem_singleton.mp hnode
    obtain rfl | hnode' := List.mem_cons.mp hnode'
    · cases hrespelled.repository
    · obtain rfl := List.mem_singleton.mp hnode'
      have hothers := hrespelled.others languageKey (by decide) (by decide)
      rw [scopedNode_attributes, if_pos rfl] at hothers
      exact absurd (hothers.trans (scopedNode_attributes ownerKey languageKey)) (by decide)

/-- The repository of the node is `core`, that of the graph node `fork`. -/
theorem repository_overwritten : ∃ graph,
    projectGraph mapCrate ⟨[scopedNode repositoryKey], []⟩ = .ok graph ∧
    ¬ List.Forall₂ (Keeps mapReading) [scopedNode repositoryKey] (mapReading.nodes graph) := by
  refine ⟨_, rfl, fun h => ?_⟩
  have hreads := @projectGraph_reads mapCrate mapReading mapReading_lawful ⟨[scopedNode repositoryKey], []⟩ _ rfl
  have hnode := (forall₂_keeps_iff hreads).mp h _ List.mem_cons_self
  have hvalue : (scopedNode repositoryKey).repository = some forked :=
    hnode.1 forked (by rw [scopedNode_attributes, if_pos rfl])
  exact absurd hvalue (by decide)

end WeavatrixMemory.GraphAttributes
