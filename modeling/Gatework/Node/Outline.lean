import Gatework.Node
import Gatework.Text.Quoted

/-!
# Outlines of trees

An outline shows a description as text, one node a line.  A line gives the kind
of the node, its position, and what it carries; nodes inside a node follow it,
two spaces further to the right.

There are two groups.

* `detail` is what a line shows after the position.
* `outline` is the outline of a node, and `Forest.outline` that of a list.
-/

namespace Gatework

open Text

namespace Node

/-- What a node carries, as its line shows it. -/
def detail : Node → String
  | comment _ _ text => " " ++ quoted text
  | invocation _ name _ => " " ++ name
  | block _ name params outputs _ =>
    s!" {name}(" ++ " ".intercalate params ++ s!") -> {outputs}"
  | imports _ path => " " ++ path
  | assignment _ names => " " ++ " ".intercalate names
  | identifier _ name => " " ++ name
  | literal _ value => if value then " 1" else " 0"
  | _ => ""

/-- The spaces in front of a line at a depth. -/
def margin (depth : Nat) : String := String.ofList (List.replicate (2 * depth) ' ')

/-- The line of a node. -/
def line (depth : Nat) (label : String) (node : Node) : String :=
  margin depth ++ label ++ s!"{node.kind.tag} {node.pos.text}" ++ node.detail ++ "\n"

mutual

/-- The outline of a node at a depth.  The label says which operand it is. -/
def outline (depth : Nat) (label : String) : Node → String
  | binary pos op lhs rhs =>
    line depth label (binary pos op lhs rhs) ++ outline (depth + 1) "LHS:" lhs ++
      outlineOperand (depth + 1) rhs
  | negation pos rhs => line depth label (negation pos rhs) ++ outlineOperand (depth + 1) rhs
  | group pos nodes => line depth label (group pos nodes) ++ outlineAll (depth + 1) nodes
  | invocation pos name nodes =>
    line depth label (invocation pos name nodes) ++ outlineAll (depth + 1) nodes
  | block pos name params outputs nodes =>
    line depth label (block pos name params outputs nodes) ++ outlineAll (depth + 1) nodes
  | node => line depth label node

/-- The outline of a right operand, which may be missing. -/
def outlineOperand (depth : Nat) : Option Node → String
  | none => margin depth ++ "RHS:<none>\n"
  | some node => outline depth "RHS:" node

/-- The outlines of a list of nodes. -/
def outlineAll (depth : Nat) : List Node → String
  | [] => ""
  | node :: rest => outline depth "" node ++ outlineAll depth rest

end

end Node

/-- The outline of a description. -/
def Forest.outline (nodes : List Node) : String := Node.outlineAll 0 nodes

end Gatework
