import Mathlib.Algebra.Ring.Int.Defs
import Mathlib.Data.List.AList
import Mathlib.Data.List.Sort

/-!
# JSON values

The JSON values that events are made of, with the accessors of the codec the
server reads them through, and the content helpers of `state_res/content.rs`.
-/

namespace Congruent

/-- An ordered map of the source; entries are read by key only. -/
abbrev BTreeMap (K V : Type) := AList fun _ : K => V

/-- A JSON value. `real` is a number that is not an integer, kept as its text. -/
inductive Value where
  | null
  | bool (b : Bool)
  | num (n : Int)
  | real (text : String)
  | str (s : String)
  | arr (xs : List Value)
  | obj (fields : List (String × Value))

/-- A JSON object: the first entry of a key is its value. -/
abbrev Object := List (String × Value)

namespace Object

def get (o : Object) (key : String) : Option Value := List.lookup key o

def remove (o : Object) (key : String) : Object := o.filter fun p => p.1 ≠ key

def insert (o : Object) (key : String) (v : Value) : Object := (key, v) :: o.remove key

/-- The entries without those a former entry hides. -/
def distinct : Object → Object
  | [] => []
  | p :: o => p :: (distinct o).filter fun q => q.1 ≠ p.1

/-- The entries in the order of their keys. -/
def iter (o : Object) : List (String × Value) := (distinct o).insertionSort fun p q => p.1 ≤ q.1

end Object

/-! ## Integers -/

/-- The largest `Int` (`i64`) of the source. -/
def intMax : Int := 2 ^ 63 - 1

/-- The smallest `Int` (`i64`) of the source. -/
def intMin : Int := -(2 ^ 63)

/-- An integer that fits `i64`. -/
def asInt64 (n : Int) : Option Int := if intMin ≤ n ∧ n ≤ intMax then some n else none

/-- The value of a nonempty run of decimal digits. -/
def digits : List Char → Option Nat
  | [] => none
  | cs => cs.foldl (fun acc ch => acc.bind fun n => if ch.isDigit then some (n * 10 + (ch.toNat - 48)) else none)
      (some 0)

/-- `str::parse::<i64>`: an optional sign and decimal digits, in range. -/
def parseInt (s : String) : Option Int :=
  match s.toList with
  | '-' :: cs => (digits cs).bind fun n => asInt64 (-(n : Int))
  | '+' :: cs => (digits cs).bind fun n => asInt64 n
  | cs => (digits cs).bind fun n => asInt64 n

/-! ## Accessors -/

/-- Errors of the codec. -/
inductive DeError where
  | expected (what : String)
  | custom (message : String)
  deriving DecidableEq, Repr

namespace Value

def asObject : Value → Option Object
  | .obj o => some o
  | _ => none

def asArray : Value → Option (List Value)
  | .arr xs => some xs
  | _ => none

def asStr : Value → Option String
  | .str s => some s
  | _ => none

def asBool : Value → Option Bool
  | .bool b => some b
  | _ => none

def asI64 : Value → Option Int
  | .num n => asInt64 n
  | _ => none

def isNull : Value → Bool
  | .null => true
  | _ => false

/-- The value of a field; `none` for everything that is not an object. -/
def get (v : Value) (key : String) : Option Value := v.asObject.bind fun o => o.get key

/-! ### Content helpers (`content.rs`) -/

def object (content : Value) : Except DeError Value :=
  if content.asObject.isSome then .ok content else .error (.expected "object")

/-- A field that may be absent or `null`. -/
def optional (object : Value) (key : String) : Option Value :=
  (object.get key).filter fun v => !v.isNull

/-- A field that must be present. -/
def required (object : Value) (key : String) : Except DeError Value :=
  match object.get key with
  | some v => .ok v
  | none => .error (.custom ("missing field `" ++ key ++ "`"))

end Value

end Congruent
