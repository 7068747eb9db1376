import Gatework.Position
import Gatework.Token

/-!
# Trees of a circuit description

A description is a list of nodes.  Operators, groups, invocations and blocks
hold further nodes.

There are three groups.

* `Node` is a tree, with the position of each node, and `Block` is a block
  apart from its place.
* The classification of nodes: their kind, which of them can be operands, which
  yield values, and which still wait for an operand.
* `members?` and `preorder` walk through the nodes that brackets hold, and
  `height` is the length of the longest descent, to which comments add nothing.
-/

namespace Gatework

/-! ## Nodes -/

/-- A node of a description. -/
inductive Node
  | comment (pos : Position) (multiline : Bool) (text : String)
  /-- A binary operator.  The right operand is missing until it has been read. -/
  | binary (pos : Position) (op : Connective) (lhs : Node) (rhs : Option Node)
  /-- A negation.  The operand is missing until it has been read. -/
  | negation (pos : Position) (rhs : Option Node)
  | group (pos : Position) (members : List Node)
  | invocation (pos : Position) (name : String) (args : List Node)
  /-- A block.  `outputs` is the number of values that its return yields. -/
  | block (pos : Position) (name : String) (params : List String) (outputs : Nat)
      (body : List Node)
  | returns (pos : Position)
  | imports (pos : Position) (path : String)
  | assignment (pos : Position) (names : List String)
  | identifier (pos : Position) (name : String)
  | literal (pos : Position) (value : Bool)

/-- A block definition, which each of its invocations expands. -/
structure Block where
  name : String
  params : List String
  /-- The number of values that the return yields. -/
  outputs : Nat
  body : List Node

namespace Node

/-! ## Classification -/

/-- The position of a node. -/
def pos : Node → Position
  | comment pos _ _ | binary pos _ _ _ | negation pos _ | group pos _ | invocation pos _ _
  | block pos _ _ _ _ | returns pos | imports pos _ | assignment pos _ | identifier pos _
  | literal pos _ => pos

/-- The kind of a node. -/
def kind : Node → TokenKind
  | comment _ true _ => .multilineComment
  | comment _ false _ => .lineComment
  | binary _ op _ _ => op.kind
  | negation _ _ => .negation
  | group _ _ => .group
  | invocation _ _ _ => .invocation
  | block _ _ _ _ _ => .block
  | returns _ => .returns
  | imports _ _ => .imports
  | assignment _ _ => .assignment
  | identifier _ _ => .identifier
  | literal _ _ => .literal

/-- Whether a node is a comment. -/
def isComment : Node → Bool
  | comment _ _ _ => true
  | _ => false

/-- Whether a node is a return. -/
def isReturn : Node → Bool
  | returns _ => true
  | _ => false

/-- Whether a node can be an operand: a literal, a name, or a group. -/
def isOperand : Node → Bool
  | group _ _ | identifier _ _ | literal _ _ => true
  | _ => false

/-- Whether a node yields values, which assignments and returns take. -/
def isValue : Node → Bool
  | invocation _ _ _ | binary _ _ _ _ | negation _ _ => true
  | node => node.isOperand

/-- Whether a node is an operator whose right operand is missing. -/
def awaitsOperand : Node → Bool
  | binary _ _ _ none | negation _ none => true
  | _ => false

/-- An operator with a right operand.  Other nodes stay as they are. -/
def bindOperand : Node → Node → Node
  | binary pos op lhs _, operand => binary pos op lhs (some operand)
  | negation pos _, operand => negation pos (some operand)
  | node, _ => node

/-- The number of nodes after the first return, or zero without one. -/
def valuesAfterReturn : List Node → Nat
  | [] => 0
  | returns _ :: rest => rest.length
  | _ :: rest => valuesAfterReturn rest

/-! ## Walking -/

/-- The nodes between the brackets of a node, if it has brackets: the members of
a group, the arguments of an invocation, or the body of a block. -/
def members? : Node → Option (List Node)
  | group _ nodes | invocation _ _ nodes | block _ _ _ _ nodes => some nodes
  | _ => none

mutual

/-- A node and the nodes between its brackets, each before those inside it. -/
def preorder : Node → List Node
  | group pos nodes => group pos nodes :: preorderAll nodes
  | invocation pos name nodes => invocation pos name nodes :: preorderAll nodes
  | block pos name params outputs nodes =>
    block pos name params outputs nodes :: preorderAll nodes
  | node => [node]

/-- The nodes of a list and those between their brackets. -/
def preorderAll : List Node → List Node
  | [] => []
  | node :: rest => preorder node ++ preorderAll rest

end

mutual

/-- The number of steps on the longest way down from a node. -/
def height : Node → Nat
  | binary _ _ lhs rhs => max lhs.height (heightOption rhs) + 1
  | negation _ rhs => heightOption rhs + 1
  | group _ nodes | invocation _ _ nodes | block _ _ _ _ nodes => heightAll nodes + 1
  | _ => 0

/-- The height of a node that may be missing. -/
def heightOption : Option Node → Nat
  | none => 0
  | some node => node.height

/-- The greatest height in a list. -/
def heightAll : List Node → Nat
  | [] => 0
  | node :: rest => max node.height (heightAll rest)

end

end Node

end Gatework
