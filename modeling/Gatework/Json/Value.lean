/-!
# JSON values

There are three groups.

* `Numeral` is a number as it is written, and `Value` a JSON value.  An object
  keeps its members as they are written.
* `member` looks a name up; of members of one name the last counts.  `set` puts one
  member in the place of all members of its name.
* The readings of a value as an array, a number, a text or a flag.  A number is an
  unsigned one of some width only if it is written without a sign and without a power
  of ten.
-/

namespace Gatework.Json

/-! ## Values -/

/-- A number as it is written: a sign, digits, and a power of ten. -/
structure Numeral where
  negative : Bool
  digits : Nat
  exponent : Int
deriving DecidableEq

/-- A JSON value. -/
inductive Value
  | null
  | bool (value : Bool)
  | number (numeral : Numeral)
  | string (text : String)
  | array (items : List Value)
  | object (members : List (String × Value))

namespace Value

/-- The value of an unsigned number. -/
def ofNat (n : Nat) : Value := .number ⟨false, n, 0⟩

/-! ## Members -/

/-- The member of a name.  It is null if there is none, or no object. -/
def member (name : String) : Value → Value
  | object members =>
    match members.reverse.find? fun member => member.1 == name with
    | some (_, value) => value
    | none => .null
  | _ => .null

/-- Some members with a value under a name.  It stands where the name was first, or else
behind the others. -/
def setMember (name : String) (value : Value) : List (String × Value) → List (String × Value)
  | [] => [(name, value)]
  | member :: rest =>
    if member.1 = name then
      (name, value) :: rest.filter fun member => member.1 ≠ name
    else
      member :: setMember name value rest

/-- An object with a value under a name.  What is no object becomes one. -/
def set (name : String) (value : Value) : Value → Value
  | object members => .object (setMember name value members)
  | _ => .object [(name, value)]

/-! ## Readings -/

/-- Whether a value is null. -/
def isNull : Value → Bool
  | null => true
  | _ => false

/-- Whether a value is an array. -/
def isArray : Value → Bool
  | array _ => true
  | _ => false

/-- Whether a value is an object. -/
def isObject : Value → Bool
  | object _ => true
  | _ => false

/-- The items of a value.  What is no array has none. -/
def items : Value → List Value
  | array items => items
  | _ => []

/-- The unsigned number below a bound that a value is. -/
def below? (bound : Nat) : Value → Option Nat
  | number ⟨false, digits, 0⟩ => if digits < bound then some digits else none
  | _ => none

/-- The unsigned 32-bit number that a value is. -/
def word32? (value : Value) : Option UInt32 := (value.below? UInt32.size).map UInt32.ofNat

/-- The unsigned 64-bit number that a value is. -/
def word64? : Value → Option Nat := below? UInt64.size

/-- The text that a value is. -/
def text? : Value → Option String
  | string text => some text
  | _ => none

/-- The flag that a value is. -/
def flag? : Value → Option Bool
  | bool value => some value
  | _ => none

end Value

end Gatework.Json
