import Gatework.Json.Library
import Gatework.Json.Value

/-!
# Reading JSON

`parse` reads a JSON text.  What cannot go on is reported with its place, a line
and a column.

There are five groups.

* `Fault` is what stops a reader, with the rest of the text where it shows, and
  `Reader` is a function from a rest of the text to a result and a further rest.
* Blanks, single characters and words.
* Texts, with their escapes.
* Numbers.  Their digits are kept as far as they fit 64 bits.
* Values, and the reading of a whole text with the places of its faults.
-/

namespace Gatework.Json

/-! ## Readers -/

/-- What stops a reader. -/
inductive Fault
  | endOfText
  /-- The first character of the rest cannot be there. -/
  | unexpected (rest : List Char)
  /-- Two escapes make no pair of surrogates. -/
  | surrogates
  | depth

/-- Reads something from the front of a rest of the text. -/
abbrev Reader (α : Type) := List Char → Except Fault (α × List Char)

/-- Refuses the front of a rest. -/
def refuse {α : Type} : List Char → Except Fault α
  | [] => .error .endOfText
  | rest => .error (.unexpected rest)

/-! ## Characters -/

/-- Whether a character is white space between values. -/
def isBlank (c : Char) : Bool := (9 ≤ c.toNat && c.toNat ≤ 13) || c == ' '

/-- A rest without blanks in front. -/
def skipBlanks (cs : List Char) : List Char := cs.dropWhile isBlank

/-- The rest after a character. -/
def after (expected : Char) : List Char → Except Fault (List Char)
  | [] => .error .endOfText
  | c :: rest => if c = expected then .ok rest else .error (.unexpected (c :: rest))

/-- The rest after a word, checked character by character. -/
def afterAll : List Char → List Char → Except Fault (List Char)
  | [], rest => .ok rest
  | c :: word, cs => do afterAll word (← after c cs)

/-- Reads a word that stands for a value. -/
def word (expected : String) (value : Value) : Reader Value := fun cs => do
  let rest ← afterAll expected.toList cs
  return (value, rest)

/-! ## Texts -/

/-- The value of a hexadecimal digit. -/
def hexValue? (c : Char) : Option Nat :=
  if '0' ≤ c ∧ c ≤ '9' then some (c.toNat - '0'.toNat)
  else if 'a' ≤ c ∧ c ≤ 'f' then some (c.toNat - 'a'.toNat + 10)
  else if 'A' ≤ c ∧ c ≤ 'F' then some (c.toNat - 'A'.toNat + 10)
  else none

/-- Reads some hexadecimal digits behind a value. -/
def hexDigits (value : Nat) : Nat → Reader Nat
  | 0, cs => .ok (value, cs)
  | _ + 1, [] => .error .endOfText
  | more + 1, c :: rest =>
    match hexValue? c with
    | some digit => hexDigits (16 * value + digit) more rest
    | none => .error (.unexpected (c :: rest))

/-- Whether a code unit is half of a pair. -/
def isSurrogate (unit : Nat) : Bool := 0xd800 ≤ unit && unit < 0xe000

/-- The character that a pair of code units stands for. -/
def pairChar? (high low : Nat) : Option Char :=
  if high < 0xdc00 ∧ 0xdc00 ≤ low ∧ low < 0xe000 then
    some (Char.ofNat (0x10000 + (high - 0xd800) * 0x400 + (low - 0xdc00)))
  else
    none

/-- Reads the digits of a character's code.  A code that is half of a pair is
followed by the other half. -/
def codeEscape : Reader Char := fun cs => do
  let (unit, rest) ← hexDigits 0 4 cs
  if isSurrogate unit then do
    let rest ← afterAll "\\u".toList rest
    let (second, rest) ← hexDigits 0 4 rest
    match pairChar? unit second with
    | some c => return (c, rest)
    | none => .error .surrogates
  else
    return (Char.ofNat unit, rest)

/-- Reads the escape after a backslash. -/
def escape : Reader Char
  | [] => .error .endOfText
  | '"' :: rest => .ok ('"', rest)
  | '\\' :: rest => .ok ('\\', rest)
  | '/' :: rest => .ok ('/', rest)
  | 'b' :: rest => .ok ('\x08', rest)
  | 'f' :: rest => .ok ('\x0c', rest)
  | 'n' :: rest => .ok ('\n', rest)
  | 'r' :: rest => .ok ('\r', rest)
  | 't' :: rest => .ok ('\t', rest)
  | 'u' :: rest => codeEscape rest
  | rest => .error (.unexpected rest)

/-- Reads a text up to its closing quote.  The first argument bounds its length:
it is as long as the rest. -/
def textBody : List Char → Reader (List Char)
  | _, [] => .error .endOfText
  | [], _ => .error .endOfText
  | _, '"' :: rest => .ok ([], rest)
  | _ :: bound, '\\' :: rest => do
    let (c, rest) ← escape rest
    let (more, rest) ← textBody bound rest
    return (c :: more, rest)
  | _ :: bound, c :: rest =>
    if c.toNat < 0x20 then
      .error (.unexpected (c :: rest))
    else do
      let (more, rest) ← textBody bound rest
      return (c :: more, rest)

/-- Reads a text whose opening quote has been read. -/
def textRest : Reader String := fun cs => do
  let (body, rest) ← textBody cs cs
  return (String.ofList body, rest)

/-! ## Numbers -/

/-- The value of a decimal digit. -/
def digitValue (c : Char) : Nat := c.toNat - '0'.toNat

/-- A number with a further digit before the point.  A digit that does not fit is
dropped, and counted in the power of ten. -/
def pushDigit (n : Numeral) (c : Char) : Numeral :=
  let digits := 10 * n.digits + digitValue c
  if digits < UInt64.size then { n with digits } else { n with exponent := n.exponent + 1 }

/-- A number with a further digit after the point.  A digit that does not fit is
dropped. -/
def pushFraction (n : Numeral) (c : Char) : Numeral :=
  let digits := 10 * n.digits + digitValue c
  if digits < UInt64.size then { n with digits, exponent := n.exponent - 1 } else n

/-- The power of ten that a run of digits stands for, at most the greatest one
that is kept. -/
def exponentValue (digits : List Char) : Nat :=
  digits.foldl (fun value c => min 32767 (10 * value + digitValue c)) 0

/-- A number with a written power of ten. -/
def scale (n : Numeral) (negative : Bool) (digits : List Char) : Numeral :=
  let power : Int := if negative then -exponentValue digits else exponentValue digits
  { n with exponent := max (-32768) (min 32767 (n.exponent + power)) }

/-- Reads at least one digit. -/
def someDigits : Reader (List Char)
  | [] => .error .endOfText
  | c :: rest =>
    if c.isDigit then
      .ok (c :: rest.takeWhile Char.isDigit, rest.dropWhile Char.isDigit)
    else
      .error (.unexpected (c :: rest))

/-- Reads the power of ten of a number, if there is one. -/
def exponentPart (n : Numeral) : Reader Numeral
  | c :: rest =>
    if c = 'e' ∨ c = 'E' then do
      let (negative, rest) := match rest with
        | '-' :: rest => (true, rest)
        | '+' :: rest => (false, rest)
        | rest => (false, rest)
      let (digits, rest) ← someDigits rest
      return (scale n negative digits, rest)
    else
      .ok (n, c :: rest)
  | [] => .ok (n, [])

/-- Reads the digits after the point of a number, if there is one. -/
def fractionPart (n : Numeral) : Reader Numeral
  | '.' :: rest => do
    let (digits, rest) ← someDigits rest
    exponentPart (digits.foldl pushFraction n) rest
  | rest => exponentPart n rest

/-- Reads a number behind its sign.  No digit follows a leading zero. -/
def numeral (negative : Bool) : Reader Numeral
  | '0' :: rest => fractionPart ⟨negative, 0, 0⟩ rest
  | cs => do
    let (digits, rest) ← someDigits cs
    fractionPart (digits.foldl pushDigit ⟨negative, 0, 0⟩) rest

/-- Reads a number. -/
def number : Reader Value := fun cs => do
  let (numeral, rest) ← match cs with
    | '-' :: rest => numeral true rest
    | cs => numeral false cs
  return (.number numeral, rest)

/-! ## Values -/

mutual

/-- Reads a value inside some open arrays and objects.  The first argument bounds
the descent. -/
def value : Nat → Nat → Reader Value
  | 0, _, _ => .error .endOfText
  | fuel + 1, depth, cs =>
    match skipBlanks cs with
    | '"' :: rest => do
      let (text, rest) ← textRest rest
      return (.string text, rest)
    | '[' :: rest =>
      match skipBlanks rest with
      | [] => .error .endOfText
      | ']' :: rest => .ok (.array [], rest)
      | rest =>
        if depth = depthLimit then .error .depth
        else do
          let (items, rest) ← items fuel (depth + 1) rest
          return (.array items, rest)
    | '\x7b' :: rest =>
      match skipBlanks rest with
      | [] => .error .endOfText
      | '\x7d' :: rest => .ok (.object [], rest)
      | rest =>
        if depth = depthLimit then .error .depth
        else do
          let (members, rest) ← members fuel (depth + 1) rest
          return (.object members, rest)
    | 't' :: rest => word "rue" (.bool true) rest
    | 'f' :: rest => word "alse" (.bool false) rest
    | 'n' :: rest => word "ull" .null rest
    | c :: rest => if c = '-' ∨ c.isDigit then number (c :: rest) else refuse (c :: rest)
    | [] => .error .endOfText

/-- Reads the items of an array and its closing bracket. -/
def items : Nat → Nat → Reader (List Value)
  | 0, _, _ => .error .endOfText
  | fuel + 1, depth, cs => do
    let (item, rest) ← value fuel depth cs
    match skipBlanks rest with
    | ',' :: rest => do
      let (more, rest) ← items fuel depth rest
      return (item :: more, rest)
    | ']' :: rest => return ([item], rest)
    | rest => refuse rest

/-- Reads the members of an object and its closing bracket. -/
def members : Nat → Nat → Reader (List (String × Value))
  | 0, _, _ => .error .endOfText
  | fuel + 1, depth, cs => do
    let rest ← after '"' (skipBlanks cs)
    let (name, rest) ← textRest rest
    let rest ← after ':' (skipBlanks rest)
    let (value, rest) ← value fuel depth rest
    match skipBlanks rest with
    | ',' :: rest => do
      let (more, rest) ← members fuel depth rest
      return ((name, value) :: more, rest)
    | '\x7d' :: rest => return ([(name, value)], rest)
    | rest => refuse rest

end

/-! ## Whole texts -/

/-- The reason why a text is no JSON. -/
inductive Error
  | unexpectedEnd
  | unexpectedCharacter (c : Char) (line col : Nat)
  | surrogates
  | depth
deriving DecidableEq

/-- The words for the reason. -/
def Error.message : Error → String
  | .unexpectedEnd => "Unexpected end of JSON"
  | .unexpectedCharacter c line col =>
    "Unexpected character: " ++ c.toString ++ s!" at ({line}:{col})"
  | .surrogates => "Failed to parse UTF-8 bytes"
  | .depth => "Exceeded depth limit"

/-- The lines of a text.  A line break ends a line, so no empty line follows the
last one; a carriage return before it belongs to it. -/
def lines : List Char → List (List Char)
  | [] => []
  | '\r' :: '\n' :: rest => [] :: lines rest
  | c :: rest =>
    if c = '\n' then
      [] :: lines rest
    else
      match lines rest with
      | [] => [[c]]
      | line :: more => (c :: line) :: more

instance : ToString Error := ⟨Error.message⟩

/-- A fault with its place in the text. -/
def Fault.locate (text : List Char) : Fault → Error
  | endOfText => .unexpectedEnd
  | unexpected [] => .unexpectedEnd
  | unexpected (c :: rest) =>
    let before := lines (text.take (text.length - (rest.length + 1)))
    let lastLength := (before.getLast?.map List.length).getD 0
    .unexpectedCharacter c (max 1 before.length) (lastLength + 1)
  | surrogates => .surrogates
  | depth => .depth

/-- Reads the value that makes up a whole text. -/
def whole (cs : List Char) : Except Fault Value := do
  let (value, rest) ← value (2 * cs.length + 1) 0 cs
  match skipBlanks rest with
  | [] => return value
  | rest => refuse rest

/-- The value of a text. -/
def parse (text : String) : Except Error Value :=
  (whole text.toList).mapError (Fault.locate text.toList)

end Gatework.Json
