/-!
# White space

The Unicode property White_Space, and the ways of dropping white space from a
list of characters.

There are two groups.

* `isBlank` is the property, as its ten ranges.
* `dropTrailingBlanks` and `trimOnce` drop the blanks at the back, and one from each
  end.
-/

namespace Gatework.Text

/-! ## The property -/

/-- The ranges of the property in ascending order, both ends included. -/
def blankRanges : List (Nat × Nat) := [
  (0x9, 0xd), (0x20, 0x20), (0x85, 0x85), (0xa0, 0xa0), (0x1680, 0x1680), (0x2000, 0x200a),
  (0x2028, 0x2029), (0x202f, 0x202f), (0x205f, 0x205f), (0x3000, 0x3000)]

/-- Whether a character is white space. -/
def isBlank (c : Char) : Bool :=
  blankRanges.any fun range => range.1 ≤ c.toNat && c.toNat ≤ range.2

/-! ## Dropping blanks -/

/-- The characters up to the last one that is not white space. -/
def dropTrailingBlanks (cs : List Char) : List Char :=
  (cs.reverse.dropWhile isBlank).reverse

/-- The characters without a single blank in front. -/
def dropOneBlank : List Char → List Char
  | [] => []
  | c :: cs => if isBlank c then cs else c :: cs

/-- The characters without a single blank in front and a single one behind. -/
def trimOnce (cs : List Char) : List Char :=
  (dropOneBlank (dropOneBlank cs).reverse).reverse

end Gatework.Text
