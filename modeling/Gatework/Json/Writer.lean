import Gatework.Json.Value

/-!
# Writing JSON

A value is written over several lines: each item and each member stands on a
line of its own, two spaces further to the right than its bracket.  Empty arrays
and objects stay on one line.

There are two groups.

* Texts, in which quotes, backslashes and control characters are escaped.
* `Value.write` writes a value.
-/

namespace Gatework.Json

/-! ## Texts -/

/-- The form of one character inside quotes. -/
def escaped (c : Char) : List Char :=
  match c with
  | '"' => ['\\', '"']
  | '\\' => ['\\', '\\']
  | '\x08' => ['\\', 'b']
  | '\t' => ['\\', 't']
  | '\n' => ['\\', 'n']
  | '\x0c' => ['\\', 'f']
  | '\r' => ['\\', 'r']
  | c =>
    if c.toNat < 0x20 then
      ['\\', 'u', '0', '0', Nat.digitChar (c.toNat / 16), Nat.digitChar (c.toNat % 16)]
    else
      [c]

/-- A text between quotes. -/
def writeText (text : String) : List Char := '"' :: text.toList.flatMap escaped ++ ['"']

/-! ## Values -/

/-- A number: its sign, its digits, and its power of ten if that is not one. -/
def writeNumeral (n : Numeral) : List Char :=
  (if n.negative then ['-'] else []) ++ Nat.toDigits 10 n.digits ++
    (if n.exponent = 0 then [] else 'e' :: (toString n.exponent).toList)

/-- A line break, and the spaces in front of a line at a depth. -/
def newLine (depth : Nat) : List Char := '\n' :: List.replicate (2 * depth) ' '

mutual

/-- A value that starts on a line at a depth. -/
def write (depth : Nat) : Value → List Char
  | .null => "null".toList
  | .bool true => "true".toList
  | .bool false => "false".toList
  | .number numeral => writeNumeral numeral
  | .string text => writeText text
  | .array [] => ['[', ']']
  | .array (item :: rest) =>
    ['['] ++ newLine (depth + 1) ++ write (depth + 1) item ++ writeItems (depth + 1) rest ++
      newLine depth ++ [']']
  | .object [] => ['\x7b', '\x7d']
  | .object ((name, value) :: rest) =>
    ['\x7b'] ++ newLine (depth + 1) ++ writeText name ++ [':', ' '] ++
      write (depth + 1) value ++ writeMembers (depth + 1) rest ++ newLine depth ++ ['\x7d']

/-- The items after the first one. -/
def writeItems (depth : Nat) : List Value → List Char
  | [] => []
  | item :: rest => [','] ++ newLine depth ++ write depth item ++ writeItems depth rest

/-- The members after the first one. -/
def writeMembers (depth : Nat) : List (String × Value) → List Char
  | [] => []
  | (name, value) :: rest =>
    [','] ++ newLine depth ++ writeText name ++ [':', ' '] ++ write depth value ++
      writeMembers depth rest

end

/-- A value as a text of its own. -/
def Value.write (value : Value) : String := String.ofList (Json.write 0 value)

end Gatework.Json
