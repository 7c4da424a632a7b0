import Mathlib.Order.Basic
import Mathlib.Order.Lattice
import Mathlib.Data.Int.Order.Basic
import WeavatrixMemory.Error

namespace WeavatrixMemory.Identity

open Error

/-- A `String` of the source: UTF-8 text of at most `isize::MAX` bytes. -/
structure Text where
  str : String
  fits : str.utf8ByteSize < 2 ^ 63
deriving DecidableEq

/-- A `Vec` of the source: at most `isize::MAX` elements. -/
@[ext]
structure Vec (α : Type) where
  items : List α
  fits : items.length < 2 ^ 63
deriving DecidableEq

theorem nil_fits {α : Type} : ([] : List α).length < 2 ^ 63 := Nat.two_pow_pos 63

/-- `format!`: a text that does not fit ends the call. -/
def formatted (s : String) : Result Text :=
  if h : s.utf8ByteSize < 2 ^ 63 then .ok ⟨s, h⟩ else .error .panicked

theorem formatted_eq_ok {s : String} {t : Text} : formatted s = .ok t ↔ t.str = s := by
  rw [formatted]
  split
  next h =>
    rw [Except.ok.injEq]
    constructor
    · rintro rfl
      rfl
    · rintro rfl
      rfl
  next h =>
    simp only [reduceCtorEq, false_iff]
    rintro rfl
    exact h t.fits

def Vec.of {α : Type} (items : List α) : Result (Vec α) :=
  if h : items.length < 2 ^ 63 then .ok ⟨items, h⟩ else .error .panicked

theorem Vec.of_eq_ok {α : Type} {items : List α} {v : Vec α} : Vec.of items = .ok v ↔ v.items = items := by
  rw [Vec.of]
  split
  next h =>
    rw [Except.ok.injEq]
    constructor
    · rintro rfl
      rfl
    · rintro rfl
      rfl
  next h =>
    simp only [reduceCtorEq, false_iff]
    rintro rfl
    exact h v.fits

/-- `push`: a vector that does not fit ends the call. -/
def Vec.push {α : Type} (v : Vec α) (a : α) : Result (Vec α) := Vec.of (v.items ++ [a])

instance : Ord Text := ⟨compareOn Text.str⟩

instance : Std.TransOrd Text := inferInstanceAs (Std.TransCmp (compareOn Text.str))

theorem Text.ext {a b : Text} (h : a.str = b.str) : a = b := by
  cases a; cases b; cases h; rfl

instance : Std.LawfulEqOrd Text where
  eq_of_compare h := Text.ext (Std.LawfulEqOrd.eq_of_compare h)

def Text.bytes (t : Text) : List UInt8 := t.str.toByteArray.data.toList

/-- `char::is_whitespace`: the characters with the Unicode property White_Space. -/
def isWhitespace (c : Char) : Bool :=
  let n := c.toNat
  (0x9 ≤ n && n ≤ 0xd) || n == 0x20 || n == 0x85 || n == 0xa0 || n == 0x1680 ||
    (0x2000 ≤ n && n ≤ 0x200a) || n == 0x2028 || n == 0x2029 || n == 0x202f || n == 0x205f ||
    n == 0x3000

def trim (s : String) : String :=
  String.ofList ((s.toList.dropWhile isWhitespace).reverse.dropWhile isWhitespace).reverse

/-- Non-empty and without surrounding whitespace: what every identifier constructor checks. -/
def Trimmed (s : String) : Prop := s ≠ "" ∧ trim s = s

instance (s : String) : Decidable (Trimmed s) := inferInstanceAs (Decidable (_ ∧ _))

inductive IdKind
  | event | stream | entity | fact | agent | session
deriving DecidableEq

def IdKind.name : IdKind → String
  | .event => "event"
  | .stream => "stream"
  | .entity => "entity"
  | .fact => "fact"
  | .agent => "agent"
  | .session => "session"

/-- A value of one of the identifier types. Its only constructors in the source, `new` and the
`Deserialize` that calls it, check `Trimmed`. -/
structure TextId (kind : IdKind) where
  text : Text
  trimmed : Trimmed text.str
deriving DecidableEq

abbrev EventId := TextId .event
abbrev StreamId := TextId .stream
abbrev EntityId := TextId .entity
abbrev FactId := TextId .fact
abbrev AgentId := TextId .agent
abbrev SessionId := TextId .session

variable {kind : IdKind}

def TextId.new (value : Text) : Result (TextId kind) :=
  if h : Trimmed value.str then .ok ⟨value, h⟩ else .error (.invalidId kind.name value.str)

/-- The `to_string` that error values carry. -/
def TextId.toString (id : TextId kind) : String := id.text.str

@[simp] theorem TextId.new_text (id : TextId kind) : TextId.new id.text = .ok id := by
  simp [TextId.new, id.trimmed]

theorem TextId.text_of_new {value : Text} {id : TextId kind} (h : TextId.new value = .ok id) : id.text = value := by
  rw [TextId.new] at h
  split at h
  next =>
    obtain rfl := Except.ok.inj h
    rfl
  next => cases h

instance : LawfulBEq (TextId kind) := inferInstance

theorem TextId.ext {a b : TextId kind} (h : a.text = b.text) : a = b := by
  cases a; cases b; cases h; rfl

instance : Ord (TextId kind) := ⟨compareOn TextId.text⟩

instance : Std.TransOrd (TextId kind) :=
  inferInstanceAs (Std.TransCmp (compareOn (@TextId.text kind)))

instance : Std.LawfulEqOrd (TextId kind) where
  eq_of_compare h := TextId.ext (Std.LawfulEqOrd.eq_of_compare h)

/-- Unix time in microseconds. -/
structure Timestamp where
  micros : Int64
deriving DecidableEq

theorem Timestamp.ext {a b : Timestamp} (h : a.micros.toInt = b.micros.toInt) : a = b := by
  cases a; cases b
  exact congrArg Timestamp.mk (Int64.toInt_inj.mp h)

instance : LinearOrder Timestamp :=
  LinearOrder.lift' (fun t => t.micros.toInt) fun _ _ h => Timestamp.ext h

/-- A `BTreeMap` of the source: an ordered map, compared by its entries. -/
abbrev BTreeMap (κ β : Type) [Ord κ] := Std.ExtTreeMap κ β

theorem getElem?_insert {κ β : Type} [Ord κ] [Std.TransOrd κ] [Std.LawfulEqOrd κ] [DecidableEq κ] (m : BTreeMap κ β)
    (key other : κ) (value : β) : (m.insert key value)[other]? = if other = key then some value else m[other]? := by
  rw [Std.ExtTreeMap.getElem?_insert]
  by_cases h : other = key
  · subst h
    rw [if_pos rfl, if_pos Std.ReflCmp.compare_self]
  · have hne : compare key other ≠ .eq := fun heq => h (Std.LawfulEqOrd.eq_of_compare heq).symm
    rw [if_neg hne, if_neg h]

/-- `into_values`: the values in the order of their keys. -/
def valuesOf {κ β : Type} [Ord κ] [Std.TransOrd κ] (m : BTreeMap κ β) : List β := m.toList.map (·.2)

theorem mem_valuesOf {κ β : Type} [Ord κ] [Std.TransOrd κ] [Std.LawfulEqOrd κ] {m : BTreeMap κ β} {value : β} :
    value ∈ valuesOf m ↔ ∃ key : κ, m[key]? = some value := by
  rw [valuesOf, List.mem_map]
  constructor
  · rintro ⟨⟨key, other⟩, he, rfl⟩
    exact ⟨key, Std.ExtTreeMap.mem_toList_iff_getElem?_eq_some.mp he⟩
  · rintro ⟨key, hk⟩
    exact ⟨(key, value), Std.ExtTreeMap.mem_toList_iff_getElem?_eq_some.mpr hk, rfl⟩

theorem getElem?_insert_eq_some {κ β : Type} [Ord κ] [Std.TransOrd κ] [Std.LawfulEqOrd κ] [DecidableEq κ]
    {m : BTreeMap κ β} {key other : κ} {value found : β} : (m.insert key value)[other]? = some found ↔
      other = key ∧ value = found ∨ other ≠ key ∧ m[other]? = some found := by
  rw [getElem?_insert]
  by_cases h : other = key
  · simp [h]
  · simp [h]

theorem insert_eq_update {κ β : Type} [Ord κ] [Std.TransOrd κ] [Std.LawfulEqOrd κ] [DecidableEq κ] (m : BTreeMap κ β)
    (key : κ) (value : β) :
    (fun other => (m.insert key value)[other]?) = Function.update (fun other => m[other]?) key (some value) := by
  funext other
  rw [getElem?_insert, Function.update_apply]

theorem nodup_keys {κ β : Type} [Ord κ] [Std.TransOrd κ] (m : BTreeMap κ β) : (m.toList.map (·.1)).Nodup := by
  rw [List.Nodup, List.pairwise_map]
  refine Std.ExtTreeMap.distinct_keys_toList.imp ?_
  rintro a b hne heq
  rw [heq] at hne
  exact hne Std.ReflCmp.compare_self

theorem nodup_valuesOf {κ β : Type} [Ord κ] [Std.TransOrd κ] [Std.LawfulEqOrd κ] {m : BTreeMap κ β} {key : β → κ}
    (h : ∀ k v, m[k]? = some v → key v = k) : ((valuesOf m).map key).Nodup := by
  have hkeys : (valuesOf m).map key = m.toList.map (·.1) := by
    rw [valuesOf, List.map_map]
    refine List.map_congr_left fun e he => ?_
    exact h e.1 e.2 (Std.ExtTreeMap.mem_toList_iff_getElem?_eq_some.mp he)
  rw [hkeys]
  exact nodup_keys m

abbrev BTreeSet (κ : Type) [Ord κ] := Std.ExtTreeSet κ

theorem mem_insert {κ : Type} [Ord κ] [Std.TransOrd κ] [Std.LawfulEqOrd κ] (s : BTreeSet κ) (key other : κ) :
    other ∈ s.insert key ↔ other = key ∨ other ∈ s := by
  rw [Std.ExtTreeSet.mem_insert, Std.LawfulEqOrd.compare_eq_iff_eq, eq_comm]

theorem mem_insertAll {κ : Type} [Ord κ] [Std.TransOrd κ] [Std.LawfulEqOrd κ] {keys : List κ} {s : BTreeSet κ}
    {key : κ} : key ∈ keys.foldl (fun s key => s.insert key) s ↔ key ∈ keys ∨ key ∈ s := by
  induction keys generalizing s with
  | nil => simp
  | cons first rest ih => rw [List.foldl_cons, ih, mem_insert, List.mem_cons, ← or_assoc, @or_comm (key ∈ rest)]

end WeavatrixMemory.Identity
