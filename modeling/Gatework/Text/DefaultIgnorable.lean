/-!
# Characters that are not drawn by default

The characters with the Unicode 17.0 property Default_Ignorable_Code_Point, which
leave no mark where they are not supported.  Among them are letters without a
shape of their own, such as the Hangul fillers.

There is one group.

* `defaultIgnorableRanges` is the table, as ranges of code points, and
  `isDefaultIgnorable` looks a character up in it.
-/

namespace Gatework.Text

/-- The ranges of the property in ascending order, both ends included. -/
def defaultIgnorableRanges : List (Nat × Nat) := [
  (0xad, 0xad), (0x34f, 0x34f), (0x61c, 0x61c), (0x115f, 0x1160), (0x17b4, 0x17b5),
  (0x180b, 0x180f), (0x200b, 0x200f), (0x202a, 0x202e), (0x2060, 0x206f), (0x3164, 0x3164),
  (0xfe00, 0xfe0f), (0xfeff, 0xfeff), (0xffa0, 0xffa0), (0xfff0, 0xfff8), (0x1bca0, 0x1bca3),
  (0x1d173, 0x1d17a), (0xe0000, 0xe0fff)]

/-- Whether a character has the property. -/
def isDefaultIgnorable (c : Char) : Bool :=
  defaultIgnorableRanges.any fun range => range.1 ≤ c.toNat && c.toNat ≤ range.2

end Gatework.Text
