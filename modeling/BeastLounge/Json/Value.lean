import Mathlib.Algebra.Ring.Int.Defs
import Mathlib.Data.List.Basic

/-!
# JSON values

The part of `boost::json` the server relies on: the kinds of values, lookup of a member by its key,
and `number_cast` to `std::size_t`. A number is an integer or a finite double, which is a mantissa
times a power of two.
-/

namespace BeastLounge.Json

inductive Number
  | int (i : Int)
  | double (mantissa exponent : Int)
deriving DecidableEq

/-- The integer a number is exactly equal to. -/
def Number.exact : Number → Option Int
  | .int i => some i
  | .double m e =>
    if 0 ≤ e then some (m * 2 ^ e.toNat)
    else if m % 2 ^ (-e).toNat = 0 then some (m / 2 ^ (-e).toNat)
    else none

inductive Value
  | null
  | bool (b : Bool)
  | number (n : Number)
  | string (s : String)
  | array (elems : List Value)
  | object (members : List (String × Value))

namespace Value

/-- The member of an object with the given key. -/
def member (key : String) : Value → Option Value
  | .object ms => ms.lookup key
  | _ => none

def isObject : Value → Bool
  | .object _ => true
  | _ => false

def isArray : Value → Bool
  | .array _ => true
  | _ => false

def isString : Value → Bool
  | .string _ => true
  | _ => false

def isNumber : Value → Bool
  | .number _ => true
  | _ => false

def isNull : Value → Bool
  | .null => true
  | _ => false

/-- `number_cast<std::size_t>`, which throws unless the value is a number exactly representable in
`std::size_t`. -/
def toSize : Value → Option Nat
  | .number n =>
    match n.exact with
    | some i => if 0 ≤ i ∧ i < 2 ^ 64 then some i.toNat else none
    | none => none
  | _ => none

end Value

end BeastLounge.Json
