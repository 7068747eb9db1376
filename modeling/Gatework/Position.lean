/-!
# Positions in a program text

Diagnostics name a place as `row:col`.  The row counts bytes along a line and
the column counts lines, both from one.

There are two groups.

* `Position` and its text.
* `skip` and `advance` move a position over one character: `skip` over a
  character between two tokens, `advance` over a character of a token.  They
  differ in what follows a line break, and in carriage returns.
-/

namespace Gatework

/-! ## Positions -/

/-- A place in a program text. -/
structure Position where
  row : Nat
  col : Nat
deriving DecidableEq

instance : Inhabited Position := ⟨⟨1, 1⟩⟩

namespace Position

/-- The place of the first character. -/
def start : Position := ⟨1, 1⟩

/-- The text of a position. -/
def text (p : Position) : String := s!"{p.row}:{p.col}"

/-! ## Moving over a character -/

/-- The position after a character between two tokens.  A line starts at row
one, and a carriage return takes no room. -/
def skip (p : Position) : Char → Position
  | '\n' => ⟨1, p.col + 1⟩
  | '\r' => p
  | _ => ⟨p.row + 1, p.col⟩

/-- The position after a character of a token.  A line that starts inside a
token starts at row zero. -/
def advance (p : Position) (c : Char) : Position :=
  if c = '\n' then ⟨0, p.col + 1⟩ else ⟨p.row + c.utf8Size, p.col⟩

end Position

end Gatework
