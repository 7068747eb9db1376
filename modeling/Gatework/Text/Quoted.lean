import Gatework.Text.DefaultIgnorable
import Gatework.Text.GraphemeExtend
import Gatework.Text.Unprintable

/-!
# Quoted text

The form in which diagnostics and listings show a text: between double quotes,
with everything that would not be seen on a terminal written as an escape.

There are two groups.

* `escaped` is the form of one character.  Six characters have an escape of
  their own, and a character that is not drawn, or is drawn onto the one before
  it, is written as its code point in lower-case hexadecimal.
* `quoted` puts the escaped characters of a text between quotes, and
  `quotedList` lists quoted texts between brackets.
-/

namespace Gatework.Text

/-! ## One character -/

/-- Whether a character is drawn onto the one before it.  The two half-width sound
marks extend it too, but are letters that take a place of their own. -/
def isDrawnOnto (c : Char) : Bool :=
  isGraphemeExtend c && c != '\uff9e' && c != '\uff9f'

/-- Whether a character is shown as it is.  Of ASCII these are the space, the one
separator that is shown, to the tilde. -/
def isShown (c : Char) : Bool :=
  (' ' ≤ c && c ≤ '~') || !(isUnprintable c || isDefaultIgnorable c || isDrawnOnto c)

/-- The escape that names a character by its code point. -/
def codePointEscape (c : Char) : List Char :=
  ['\\', 'u', '\x7b'] ++ Nat.toDigits 16 c.toNat ++ ['\x7d']

/-- The form of one character inside quotes. -/
def escaped (c : Char) : List Char :=
  match c with
  | '\x00' => ['\\', '0']
  | '\t' => ['\\', 't']
  | '\n' => ['\\', 'n']
  | '\r' => ['\\', 'r']
  | '"' => ['\\', '"']
  | '\\' => ['\\', '\\']
  | c => if isShown c then [c] else codePointEscape c

/-! ## A whole text -/

/-- A text between double quotes. -/
def quoted (text : String) : String :=
  String.ofList ('"' :: text.toList.flatMap escaped ++ ['"'])

/-- Quoted texts between brackets, with a comma and a space between two. -/
def quotedList (texts : List String) : String :=
  "[" ++ ", ".intercalate (texts.map quoted) ++ "]"

end Gatework.Text
