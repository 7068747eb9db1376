/-!
# Libraries for JSON

Summaries are written and read with a library for JSON.  `Library` is what they need of
one: values are built and read, and texts are parsed into values and written from them.
What a value is and what a text looks like is left to the library.

There are two groups.

* `Library` itself, and how deeply the texts it reads may be nested.
* What the operations are put together to: the value of what may be absent, and the
  object of some members, which are set one after the other.
-/

namespace Gatework.Json

/-! ## Libraries -/

/-- A library for JSON, with `V` as its values and `E` as its reasons why a text is no JSON. -/
structure Library (V E : Type) where
  null : V
  array : List V → V
  newObject : V
  /-- An object with a member of some name set to a value. -/
  set : String → V → V → V
  ofWord32 : UInt32 → V
  /-- The value of an unsigned number below 2 ^ 64. -/
  ofWord64 : Nat → V
  ofText : String → V
  ofFlag : Bool → V
  isNull : V → Bool
  isArray : V → Bool
  isObject : V → Bool
  /-- The items of an array. -/
  items : V → List V
  /-- What indexing a value by a name gives. -/
  member : String → V → V
  word32? : V → Option UInt32
  word64? : V → Option Nat
  text? : V → Option String
  flag? : V → Option Bool
  parse : String → Except E V
  /-- The text of a value, over several lines. -/
  write : V → String

/-- The greatest number of arrays and objects that are open at once in a text that is
read. -/
def depthLimit : Nat := 512

/-! ## Composite values -/

namespace Library

variable {V E : Type} (lib : Library V E)

/-- The value of something that may be absent. -/
def ofOption {α : Type} (f : α → V) : Option α → V
  | none => lib.null
  | some a => f a

/-- An object after some members have been set one after the other. -/
def setAll (members : List (String × V)) (object : V) : V :=
  members.foldl (fun object member => lib.set member.1 member.2 object) object

/-- The object of some members. -/
def object (members : List (String × V)) : V := lib.setAll members lib.newObject

end Library

end Gatework.Json
