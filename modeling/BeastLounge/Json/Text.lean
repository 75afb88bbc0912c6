import Mathlib.Data.String.Basic
import Mathlib.Tactic.Linarith
import BeastLounge.Json.Value

/-!
# Serialized JSON

The serializer belongs to a library; what the server relies on is that it produces the compact text
of a value (`Compact`). Strings that need no escapes stand as they are, and an escape takes at most
six bytes for each byte of the string. From this follow the sizes of the texts of objects and arrays.

`Value.text` is such a text: it shows that there is one.
-/

namespace BeastLounge.Json

/-! ### Compact texts -/

/-- Letters, digits, blanks and full stops need no escapes. -/
def isPlain (s : String) : Bool := s.toList.all fun c => c.isAlphanum || c = ' ' || c = '.'

/-- `text v` is the compact JSON text of `v`. Nothing is said of a double, or of the words for the null
value and the truth values. -/
structure Compact (text : Value → String) : Prop where
  int : ∀ i : Int, text (.number (.int i)) = toString i
  plain : ∀ s, isPlain s = true → text (.string s) = "\"" ++ s ++ "\""
  string_le : ∀ s, (text (.string s)).utf8ByteSize ≤ 6 * s.utf8ByteSize + 2
  array : ∀ elems, text (.array elems) = "[" ++ ",".intercalate (elems.map text) ++ "]"
  object : ∀ members, text (.object members) =
    "\x7b" ++ ",".intercalate (members.map fun m => text (.string m.1) ++ ":" ++ text m.2) ++ "\x7d"

/-- What stands between the braces of an object. -/
def membersText (text : Value → String) (members : List (String × Value)) : String :=
  ",".intercalate (members.map fun m => text (.string m.1) ++ ":" ++ text m.2)

/-! ### Sizes -/

theorem size_repr_le {n k : Nat} (hk : 0 < k) (h : n < 10 ^ k) : n.repr.utf8ByteSize ≤ k := by
  have hdigit : ∀ m < 10, (Nat.digitChar m).utf8Size = 1 := by decide
  induction k generalizing n with
  | zero => contradiction
  | succ k ih =>
    by_cases hn : n < 10
    · rw [Nat.repr_of_lt hn, String.utf8ByteSize_singleton, hdigit n hn]
      omega
    · have hk' : 0 < k := by
        rw [Nat.pos_iff_ne_zero]
        rintro rfl
        omega
      have hrest := ih hk' (n := n / 10) (by rw [pow_succ] at h; omega)
      rw [Nat.repr_of_ge (by omega), String.utf8ByteSize_append, String.utf8ByteSize_singleton,
        hdigit _ (by omega)]
      omega

/-- An integer of `k` digits, with its sign. -/
theorem size_toString_le {i : Int} {k : Nat} (hk : 0 < k) (h : i.natAbs < 10 ^ k) :
    (toString i).utf8ByteSize ≤ k + 1 := by
  rw [Int.toString_eq_repr]
  cases i with
  | ofNat n =>
    have := size_repr_le hk (n := n) h
    exact Nat.le_succ_of_le this
  | negSucc n =>
    have := size_repr_le hk (n := n + 1) h
    have hsign : ("-" : String).utf8ByteSize = 1 := rfl
    show ("-" ++ (n + 1).repr).utf8ByteSize ≤ k + 1
    rw [String.utf8ByteSize_append, hsign]
    omega

section compact
variable {text : Value → String} (htext : Compact text)

include htext

theorem size_plain {s : String} {n : Nat} (h : isPlain s = true ∧ s.utf8ByteSize + 2 = n) :
    (text (.string s)).utf8ByteSize = n := by
  have hquote : ("\"" : String).utf8ByteSize = 1 := rfl
  rw [htext.plain s h.1, String.utf8ByteSize_append, String.utf8ByteSize_append, hquote]
  omega

theorem size_int_le {i : Int} {k : Nat} (hk : 0 < k) (h : i.natAbs < 10 ^ k) :
    (text (.number (.int i))).utf8ByteSize ≤ k + 1 := by
  rw [htext.int]
  exact size_toString_le hk h

theorem size_object (members : List (String × Value)) :
    (text (.object members)).utf8ByteSize = (membersText text members).utf8ByteSize + 2 := by
  have hopen : ("\x7b" : String).utf8ByteSize = 1 := rfl
  have hclose : ("\x7d" : String).utf8ByteSize = 1 := rfl
  rw [htext.object, String.utf8ByteSize_append, String.utf8ByteSize_append, hopen, hclose, membersText]
  omega

omit htext in
theorem size_members_single (k : String) (v : Value) :
    (membersText text [(k, v)]).utf8ByteSize =
      (text (.string k)).utf8ByteSize + (text v).utf8ByteSize + 1 := by
  have hcolon : (":" : String).utf8ByteSize = 1 := rfl
  simp only [membersText, List.map_singleton, String.intercalate_singleton, String.utf8ByteSize_append,
    hcolon]
  omega

omit htext in
theorem size_members_cons (k : String) (v : Value) (m : String × Value) (ms : List (String × Value)) :
    (membersText text ((k, v) :: m :: ms)).utf8ByteSize =
      (text (.string k)).utf8ByteSize + (text v).utf8ByteSize + 2 +
        (membersText text (m :: ms)).utf8ByteSize := by
  have hcolon : (":" : String).utf8ByteSize = 1 := rfl
  have hcomma : ("," : String).utf8ByteSize = 1 := rfl
  simp only [membersText, List.map_cons, String.intercalate_cons_cons, String.utf8ByteSize_append,
    hcolon, hcomma]
  omega

/-- An array whose elements have at most `n` bytes. -/
theorem size_array_le {elems : List Value} {n : Nat} (h : ∀ v ∈ elems, (text v).utf8ByteSize ≤ n) :
    (text (.array elems)).utf8ByteSize ≤ elems.length * (n + 1) + 2 := by
  have hopen : ("[" : String).utf8ByteSize = 1 := rfl
  have hclose : ("]" : String).utf8ByteSize = 1 := rfl
  have hcomma : ("," : String).utf8ByteSize = 1 := rfl
  have helems : (",".intercalate (elems.map text)).utf8ByteSize ≤ elems.length * (n + 1) := by
    induction elems with
    | nil => simp
    | cons v vs ih =>
      have hv := h v (by simp)
      cases vs with
      | nil =>
        rw [List.map_singleton, String.intercalate_singleton, List.length_singleton]
        omega
      | cons w ws =>
        have hrest := ih fun x hx => h x (List.mem_cons_of_mem _ hx)
        simp only [List.map_cons, String.intercalate_cons_cons, String.utf8ByteSize_append, hcomma,
          List.length_cons] at hrest ⊢
        rw [Nat.add_mul (ws.length + 1) 1]
        omega
  rw [htext.array, String.utf8ByteSize_append, String.utf8ByteSize_append, hopen, hclose]
  omega

end compact

/-! ### A compact text -/

/-- The text of a double with the given mantissa and exponent. -/
abbrev NumberFormat := Int → Int → String

/-- A character of a string, escaped where JSON requires it. -/
def escapeChar (c : Char) : String :=
  match c.toNat with
  | 8 => "\\b"
  | 9 => "\\t"
  | 10 => "\\n"
  | 12 => "\\f"
  | 13 => "\\r"
  | 34 => "\\\""
  | 92 => "\\\\"
  | n =>
    if n < 32 then "\\u00" ++ (if n < 16 then "0" else "1") ++ String.singleton (Nat.digitChar (n % 16))
    else String.singleton c

def escape (s : String) : String := s.toList.foldr (fun c t => escapeChar c ++ t) ""

def quote (s : String) : String := "\"" ++ escape s ++ "\""

def Number.text (fmt : NumberFormat) : Number → String
  | .int i => toString i
  | .double m e => fmt m e

variable (fmt : NumberFormat)

mutual

def Value.text : Value → String
  | .null => "null"
  | .bool b => if b then "true" else "false"
  | .number n => n.text fmt
  | .string s => quote s
  | .array elems => "[" ++ elemsText elems ++ "]"
  | .object members => "\x7b" ++ objectText members ++ "\x7d"

def elemsText : List Value → String
  | [] => ""
  | [v] => v.text
  | v :: w :: vs => v.text ++ "," ++ elemsText (w :: vs)

def objectText : List (String × Value) → String
  | [] => ""
  | [(k, v)] => quote k ++ ":" ++ v.text
  | (k, v) :: m :: ms => quote k ++ ":" ++ v.text ++ "," ++ objectText (m :: ms)

end

/-! ### It is compact -/

theorem size_escapeChar_le (c : Char) : (escapeChar c).utf8ByteSize ≤ 6 * c.utf8Size := by
  have hpos : 0 < c.utf8Size := c.utf8Size_pos
  have hdigit : ∀ m < 16, (Nat.digitChar m).utf8Size = 1 := by decide
  unfold escapeChar
  split
  iterate 7
    exact le_trans (by decide : _ ≤ 6) (by omega)
  rename_i n _ _ _ _ _ _ _
  split
  · have h16 := hdigit (c.toNat % 16) (by omega)
    split <;> simp only [String.utf8ByteSize_append, String.utf8ByteSize_singleton, h16]
    · exact le_trans (by decide : _ ≤ 6) (by omega)
    · exact le_trans (by decide : _ ≤ 6) (by omega)
  · rw [String.utf8ByteSize_singleton]
    omega

theorem size_escape (s : String) :
    (escape s).utf8ByteSize = (s.toList.map fun c => (escapeChar c).utf8ByteSize).sum := by
  unfold escape
  induction s.toList with
  | nil => rfl
  | cons c cs ih =>
    rw [List.foldr_cons, String.utf8ByteSize_append, ih, List.map_cons, List.sum_cons]

theorem utf8ByteSize_eq_sum (s : String) : s.utf8ByteSize = (s.toList.map Char.utf8Size).sum := by
  have hlist : ∀ cs : List Char, (String.ofList cs).utf8ByteSize = (cs.map Char.utf8Size).sum := by
    intro cs
    induction cs with
    | nil => rfl
    | cons c cs ih =>
      rw [List.map_cons, List.sum_cons, ← ih, ← List.singleton_append, String.ofList_append,
        String.utf8ByteSize_append, ← String.singleton_eq_ofList, String.utf8ByteSize_singleton]
  rw [← hlist, String.ofList_toList]

/-- Escaping makes a string at most six times as long. -/
theorem size_escape_le (s : String) : (escape s).utf8ByteSize ≤ 6 * s.utf8ByteSize := by
  rw [size_escape, utf8ByteSize_eq_sum]
  induction s.toList with
  | nil => rfl
  | cons c cs ih =>
    have hc := size_escapeChar_le c
    simp only [List.map_cons, List.sum_cons]
    omega

theorem size_quote (s : String) : (quote s).utf8ByteSize = (escape s).utf8ByteSize + 2 := by
  have hquote : ("\"" : String).utf8ByteSize = 1 := rfl
  simp only [quote, String.utf8ByteSize_append, hquote]
  omega

theorem escapeChar_plain {c : Char} (h : (c.isAlphanum || c = ' ' || c = '.') = true) :
    escapeChar c = String.singleton c := by
  have hbound : 32 ≤ c.toNat ∧ c.toNat ≠ 34 ∧ c.toNat ≠ 92 := by
    have hrange : ∀ {a b : UInt32}, (decide (a ≤ c.val) && decide (c.val ≤ b)) = true →
        a.toNat ≤ c.toNat ∧ c.toNat ≤ b.toNat := by
      intro a b hab
      obtain ⟨ha, hb⟩ := Bool.and_eq_true_iff.mp hab
      exact ⟨UInt32.le_iff_toNat_le.mp (of_decide_eq_true ha),
        UInt32.le_iff_toNat_le.mp (of_decide_eq_true hb)⟩
    have hcases : ((c.isUpper || c.isLower) || c.isDigit || decide (c = ' ') || decide (c = '.')) = true :=
      h
    simp only [Bool.or_eq_true, decide_eq_true_eq] at hcases
    rcases hcases with (((h | h) | h) | rfl) | rfl
    · have hupper : 65 ≤ c.toNat ∧ c.toNat ≤ 90 := hrange ((Bool.decide_and _ _).symm.trans h)
      omega
    · have hlower : 97 ≤ c.toNat ∧ c.toNat ≤ 122 := hrange h
      omega
    · have hdigit : 48 ≤ c.toNat ∧ c.toNat ≤ 57 := hrange h
      omega
    · decide
    · decide
  unfold escapeChar
  split
  case h_8 => exact if_neg (by omega)
  all_goals omega

/-- A plain string needs no escapes. -/
theorem escape_plain {s : String} (h : isPlain s = true) : escape s = s := by
  have hall := List.all_eq_true.mp h
  have hfold : ∀ cs : List Char, (∀ c ∈ cs, (c.isAlphanum || c = ' ' || c = '.') = true) →
      cs.foldr (fun c t => escapeChar c ++ t) "" = String.ofList cs := by
    intro cs hcs
    induction cs with
    | nil => rfl
    | cons c cs ih =>
      rw [List.foldr_cons, ih fun x hx => hcs x (List.mem_cons_of_mem _ hx),
        escapeChar_plain (hcs c List.mem_cons_self), String.singleton_eq_ofList, ← String.ofList_append]
      rfl
  rw [escape, hfold s.toList hall, String.ofList_toList]

section text
variable (fmt : NumberFormat)

theorem elemsText_eq (elems : List Value) :
    elemsText fmt elems = ",".intercalate (elems.map (Value.text fmt)) := by
  induction elems with
  | nil => rw [elemsText, List.map_nil, String.intercalate_nil]
  | cons v vs ih =>
    cases vs with
    | nil => rw [elemsText, List.map_singleton, String.intercalate_singleton]
    | cons w ws =>
      rw [elemsText, ih]
      simp only [List.map_cons, String.intercalate_cons_cons]

theorem objectText_eq (members : List (String × Value)) :
    objectText fmt members = membersText (Value.text fmt) members := by
  induction members with
  | nil => rw [objectText, membersText, List.map_nil, String.intercalate_nil]
  | cons m ms ih =>
    obtain ⟨k, v⟩ := m
    cases ms with
    | nil => rw [objectText, membersText, List.map_singleton, String.intercalate_singleton, Value.text]
    | cons m' ms =>
      rw [objectText, ih]
      simp only [membersText, List.map_cons, String.intercalate_cons_cons, Value.text]

theorem compact_text : Compact (Value.text fmt) where
  int i := by rw [Value.text, Number.text]
  plain s h := by rw [Value.text, quote, escape_plain h]
  string_le s := by
    have hescape := size_escape_le s
    rw [Value.text, size_quote]
    omega
  array elems := by rw [Value.text, elemsText_eq]
  object members := by rw [Value.text, objectText_eq, membersText]

end text

end BeastLounge.Json
