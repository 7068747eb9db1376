import Gatework.Position
import Gatework.Token.Scan

/-!
# Tokens with their places

`Reading.ofText` splits a program text into tokens, each with the position of
its first character, and says how the text ends.

There are two groups.

* `Lexeme`, `Ending` and `Reading` are the parts of the answer.
* `readFrom` is the reading of a rest of the text.  It goes character by
  character and keeps the number of characters that still belong to the token
  it has last seen, so it descends along the text.
-/

namespace Gatework

/-! ## Readings -/

/-- A token and the position of its first character. -/
structure Lexeme where
  token : Token
  pos : Position

/-- How the reading of a text ends. -/
inductive Ending
  /-- The text is read to its end, which is at `pos`. -/
  | complete (pos : Position)
  /-- No token begins at `pos`, where the text goes on with `excerpt`. -/
  | stuck (pos : Position) (excerpt : String)

/-- What a text is made of. -/
structure Reading where
  lexemes : List Lexeme
  ending : Ending

/-! ## Splitting a text -/

/-- Whether a character only separates tokens. -/
def isGap (c : Char) : Bool := c == ' ' || c == '\t' || c == '\n' || c == '\r'

/-- The number of characters that an excerpt shows. -/
def excerptLength : Nat := 30

/-- The reading of a rest of the text, of which the first `inside` characters
belong to a token that has been read and the next is at `pos`. -/
def readFrom : Nat → Position → List Char → Reading
  | _, pos, [] => ⟨[], .complete pos⟩
  | inside + 1, pos, c :: cs => readFrom inside (pos.advance c) cs
  | 0, pos, c :: cs =>
    if isGap c then
      readFrom 0 (pos.skip c) cs
    else
      match Token.scan (c :: cs) with
      | none => ⟨[], .stuck pos (String.ofList ((c :: cs).take excerptLength))⟩
      | some (token, size) =>
        let reading := readFrom (size - 1) (pos.advance c) cs
        ⟨⟨token, pos⟩ :: reading.lexemes, reading.ending⟩

/-- The reading of a text. -/
def Reading.ofText (text : String) : Reading := readFrom 0 .start text.toList

end Gatework
