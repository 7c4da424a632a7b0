import WeavatrixMemory.Identity
import WeavatrixMemory.Library.Words

namespace WeavatrixMemory.Extraction.Key

open Error Identity Words

/-- The Unicode tables behind `char::is_alphanumeric`, `char::to_lowercase` and `str::to_lowercase`. -/
structure Unicode where
  isAlphanumeric : Char → Bool
  charToLowercase : Char → List Char
  strToLowercase : String → String

def Unicode.ascii : Unicode where
  isAlphanumeric := Char.isAlphanum
  charToLowercase c := [c.toLower]
  strToLowercase s := String.ofList (s.toList.map Char.toLower)

def normalizedLoop (unicode : Unicode) : List Char → List Char → Bool → List Char
  | [], output, _ => output
  | c :: rest, output, separator =>
      if unicode.isAlphanumeric c then
        normalizedLoop unicode rest
          ((if separator && !output.isEmpty then output ++ [' '] else output) ++ unicode.charToLowercase c) false
      else normalizedLoop unicode rest output true

def normalized (unicode : Unicode) (value : String) : String :=
  String.ofList (normalizedLoop unicode value.toList [] false)

def slug (unicode : Unicode) (value : String) : String :=
  let slug := String.ofList (((normalized unicode value).toList.take 32).map fun c => if c = ' ' then '-' else c)
  if slug = "" then "entity" else slug

example : slug .ascii "  Issue--Tracker (v2)" = "issue-tracker-v2" := by decide +kernel

def hashByte (hash : UInt64) (byte : UInt8) : UInt64 := (hash ^^^ byte.toUInt64) * 0x00000100000001b3

def stableHash (parts : List String) : UInt64 :=
  parts.foldl (fun hash part =>
    (leBytes 8 part.utf8ByteSize ++ part.toByteArray.data.toList).foldl hashByte hash) 0xcbf29ce484222325

def hexDigits : Nat → Nat → List Char
  | 0, _ => []
  | width + 1, n => hexDigits width (n / 16) ++ [Nat.digitChar (n % 16)]

def hex (hash : UInt64) : String := String.ofList (hexDigits 16 hash.toNat)

example : hex 0xcbf29ce484222325 = "cbf29ce484222325" := by decide +kernel

def CollisionFree (tuples : List (List String)) : Prop :=
  ∀ a ∈ tuples, ∀ b ∈ tuples, stableHash a = stableHash b → a = b

instance decidableCollisionFree (tuples : List (List String)) : Decidable (CollisionFree tuples) :=
  inferInstanceAs (Decidable (∀ a ∈ tuples, _))

theorem utf8ByteSize_ofList_le (cs : List Char) : (String.ofList cs).utf8ByteSize ≤ 4 * cs.length := by
  induction cs with
  | nil => exact Nat.le_refl 0
  | cons c cs ih =>
      have hc := c.utf8Size_le_four
      rw [String.ofList_cons, String.utf8ByteSize_append, String.utf8ByteSize_singleton, List.length_cons]
      omega

theorem length_hexDigits (width n : Nat) : (hexDigits width n).length = width := by
  induction width generalizing n with
  | zero => rfl
  | succ width ih => rw [hexDigits, List.length_append, ih, List.length_singleton]

theorem digitChar_inj {m n : Nat} (hm : m < 16) (hn : n < 16) (h : Nat.digitChar m = Nat.digitChar n) : m = n := by
  have hall : ∀ m < 16, ∀ n < 16, Nat.digitChar m = Nat.digitChar n → m = n := by decide
  exact hall m hm n hn h

theorem hexDigits_inj (width : Nat) {m n : Nat} (hm : m < 16 ^ width) (hn : n < 16 ^ width)
    (h : hexDigits width m = hexDigits width n) : m = n := by
  induction width generalizing m n with
  | zero => rw [Nat.lt_one_iff.mp hm, Nat.lt_one_iff.mp hn]
  | succ width ih =>
      rw [Nat.pow_succ, Nat.mul_comm] at hm hn
      obtain ⟨hhigh, hlow⟩ := List.append_inj' h rfl
      have hdiv := ih (Nat.div_lt_of_lt_mul hm) (Nat.div_lt_of_lt_mul hn) hhigh
      have hmod := digitChar_inj (Nat.mod_lt _ (by decide)) (Nat.mod_lt _ (by decide)) (List.cons.inj hlow).1
      rw [← Nat.div_add_mod m 16, hdiv, hmod, Nat.div_add_mod]

theorem hex_inj {a b : UInt64} (h : hex a = hex b) : a = b := by
  have hdigits := String.ofList_injective h
  exact UInt64.toNat_inj.mp (hexDigits_inj 16 a.toNat_lt b.toNat_lt hdigits)

/-- Two names made of the same stem and the hashes of two tuples are different if the tuples are. -/
theorem CollisionFree.name_inj {tuples : List (List String)} (h : CollisionFree tuples) (stem : String)
    {a b : List String} (ha : a ∈ tuples) (hb : b ∈ tuples)
    (heq : stem ++ hex (stableHash a) = stem ++ hex (stableHash b)) : a = b := by
  have htail := congrArg String.toList heq
  rw [String.toList_append, String.toList_append] at htail
  exact h a ha b hb (hex_inj (String.ext (List.append_cancel_left htail)))

theorem not_isWhitespace_digitChar (n : Nat) : isWhitespace (Nat.digitChar n) = false := by
  by_cases h : n < 16
  · have hall : ∀ n < 16, isWhitespace (Nat.digitChar n) = false := by decide
    exact hall n h
  · rw [Nat.digitChar_eq_star.mpr (Nat.not_lt.mp h)]
    rfl

theorem dropWhile_of_head {α : Type} {p : α → Bool} {a : α} {rest : List α} (h : p a = false) :
    (a :: rest).dropWhile p = a :: rest := by
  rw [List.dropWhile_cons_of_neg (by rw [h]; exact Bool.false_ne_true)]

theorem trimmed_of_ends {first last : Char} {middle : List Char} (hfirst : isWhitespace first = false)
    (hlast : isWhitespace last = false) : Trimmed (String.ofList (first :: (middle ++ [last]))) := by
  constructor
  · intro h
    have hlist := congrArg String.toList h
    rw [String.toList_ofList] at hlist
    cases hlist
  · rw [trim, String.toList_ofList, dropWhile_of_head hfirst, ← List.cons_append, List.reverse_append,
      List.reverse_singleton, List.singleton_append, dropWhile_of_head hlast, List.reverse_cons,
      List.reverse_reverse]

theorem trimmed_stem {stem : String} {first last : Char} {rest tail : List Char} (hstem : stem.toList = first :: rest)
    (hfirst : isWhitespace first = false) (hlast : isWhitespace last = false) :
    Trimmed (stem ++ String.ofList (tail ++ [last])) := by
  have hlist : stem ++ String.ofList (tail ++ [last]) = String.ofList (first :: ((rest ++ tail) ++ [last])) := by
    apply String.ext
    rw [String.toList_append, hstem, String.toList_ofList, String.toList_ofList, List.cons_append, List.append_assoc]
  rw [hlist]
  exact trimmed_of_ends hfirst hlast

theorem trimmed_name {stem : String} {first : Char} {rest : List Char} (hstem : stem.toList = first :: rest)
    (hfirst : isWhitespace first = false) (hash : UInt64) : Trimmed (stem ++ hex hash) :=
  trimmed_stem hstem hfirst (not_isWhitespace_digitChar (hash.toNat % 16))

theorem not_isWhitespace_of_isDigit {c : Char} (h : c.isDigit = true) : isWhitespace c = false := by
  rw [Char.isDigit, Bool.and_eq_true, decide_eq_true_iff, decide_eq_true_iff] at h
  have hlow : 48 ≤ c.toNat := UInt32.le_iff_toNat_le.mp h.1
  have hhigh : c.toNat ≤ 57 := UInt32.le_iff_toNat_le.mp h.2
  simp only [isWhitespace, Bool.or_eq_false_iff, Bool.and_eq_false_iff, decide_eq_false_iff_not, beq_eq_false_iff_ne]
  omega

theorem trimmed_number {stem : String} {first : Char} {rest : List Char} (hstem : stem.toList = first :: rest)
    (hfirst : isWhitespace first = false) (n : Nat) : Trimmed (stem ++ toString n) := by
  rw [Nat.toString_eq_ofList_toDigits]
  have hne : Nat.toDigits 10 n ≠ [] := Nat.toDigits_ne_nil
  have hlast := Nat.isDigit_of_mem_toDigits (by decide) (by decide) (List.getLast_mem hne)
  rw [← List.dropLast_concat_getLast hne]
  exact trimmed_stem hstem hfirst (not_isWhitespace_of_isDigit hlast)

end WeavatrixMemory.Extraction.Key
