/-!
# Collections

A description can import the blocks of a collection by its name.

There are two groups.

* `Collection` is a named text, and `Collection.all` is the table of them.
* `find?` looks a name up, and `isName` tells a name that a collection could
  have from other paths.
-/

namespace Gatework

/-! ## The table -/

/-- A named text that descriptions can import. -/
structure Collection where
  name : String
  text : String

namespace Collection

/-- A four-bit counter. -/
def counter : Collection where
  name := "counter"
  text := "
block counter8(clock reset) \x7b
    let c1 = tflipflop(clock 1 0 reset)

    let toggle_c2 = c1
    let c2 = tflipflop(clock toggle_c2 0 reset)

    let toggle_c4 = (c1 and c2)
    let c4 = tflipflop(clock toggle_c4 0 reset)

    let toggle_c8 = ((c1 and c2) and c4)
    let c8 = tflipflop(clock toggle_c8 0 reset)

    return c1 c2 c4 c8
\x7d
"

/-- Adders, and the negation of a four-bit number. -/
def adder : Collection where
  name := "adder"
  text := "
block halfadder(a b) \x7b
    let sum = ((a and (not b)) or ((not a) and b))
    let carry = (a and b)
    return sum carry
\x7d

block adder(a b c) \x7b
    let sum1 carry1 = halfadder(a b)
    let sum2 carry2 = halfadder(sum1 c)

    let carry = (carry1 or carry2)
    return sum2 carry
\x7d

block adder4(a0 a1 a2 a3 b0 b1 b2 b3) \x7b
    let sum1 carry1 = adder(a0 b0 0)
    let sum2 carry2 = adder(a1 b1 carry1)
    let sum4 carry4 = adder(a2 b2 carry2)
    let sum8 overflow = adder(a3 b3 carry4)

    return sum1 sum2 sum4 sum8 overflow
\x7d

// Two's complement of a 4-bit value, computed as ~a + 1.
block twoscomplement4(a0 a1 a2 a3) \x7b
    let b0 b1 b2 b3 _ = adder4(
        (not a0) (not a1) (not a2) (not a3)
        1        0        0        0
    )
    return b0 b1 b2 b3
\x7d
"

/-- Latches that are set and reset, or follow a clock. -/
def latch : Collection where
  name := "latch"
  text := "
block srlatch(s r) \x7b
    let q = (not (r or nq))
    let nq = (not (s or q))
    return q
\x7d

block srlatch2(s r) \x7b
    let q = (not (r or nq))
    let nq = (not (s or q))
    return q nq
\x7d

block dlatch(clock d) \x7b
    let s r = (clock and d) (clock and (not d))
    let q = (not (r or nq))
    let nq = (not (s or q))
    return q
\x7d

block dlatch2(clock d) \x7b
    let s r = (clock and d) (clock and (not d))
    let q = (not (r or nq))
    let nq = (not (s or q))
    return q nq
\x7d
"

/-- All collections. -/
def all : List Collection := [counter, adder, latch]

/-! ## Names -/

/-- The collection of a name. -/
def find? (name : String) : Option Collection :=
  all.find? fun collection => collection.name == name

/-- Whether a path has the shape of a collection's name: letters and underscores
only, and at least one. -/
def isName (path : String) : Bool :=
  !path.isEmpty && path.toList.all fun c => c.isAlpha || c == '_'

end Collection

end Gatework
