import Gatework.Node

/-!
# Evaluation of a description

The values of a description, computed from its tree without any netlist.  A
binary operator is an operation on two truth values, and a name stands for one.

There are three groups.

* `World` is what is known at a point of an evaluation: the frames that are open,
  each with the values and blocks of its names, and the signals of the names that
  no frame binds, in the order in which such names will be met.
* The pieces of the evaluation, written for any evaluator of the nodes inside.
  An assignment takes the values of the siblings after it, and a return takes all
  of them.
* `evaluateNode` evaluates one node, `evaluator` ties the recursion by a bound on
  its depth, and `evaluate` is the value of a description.
-/

namespace Gatework

/-- The operation of a binary operator. -/
def Connective.apply : Connective → Bool → Bool → Bool
  | .conj, a, b => a && b
  | .disj, a, b => a || b

/-! ## What is known -/

/-- The names of one invocation, or of the description itself. -/
structure Frame where
  values : String → Option Bool
  /-- The blocks in the order of their definitions. -/
  blocks : List Block

namespace Frame

/-- The frame that knows nothing. -/
def empty : Frame := ⟨fun _ => none, []⟩

/-- The frame with a name bound to a value. -/
def bind (name : String) (value : Bool) (f : Frame) : Frame :=
  { f with values := fun other => if other = name then some value else f.values other }

/-- The frame with names bound to values, one after the other. -/
def bindAll (pairs : List (String × Bool)) (f : Frame) : Frame :=
  pairs.foldl (fun f pair => f.bind pair.1 pair.2) f

end Frame

/-- What is known at a point of an evaluation. -/
structure World where
  /-- The innermost frame. -/
  frame : Frame
  /-- The frames around it, innermost first. -/
  outer : List Frame
  /-- The signals of the names that are not bound, in the order in which they will
  be met. -/
  inputs : List Bool

namespace World

/-- The open frames, innermost first. -/
def frames (w : World) : List Frame := w.frame :: w.outer

/-- The innermost value of a name. -/
def value? (name : String) (w : World) : Option Bool :=
  w.frames.findSome? fun frame => frame.values name

/-- The innermost block of a name. -/
def block? (name : String) (w : World) : Option Block :=
  w.frames.findSome? fun frame => frame.blocks.find? fun block => block.name = name

/-- Opens a frame inside the others. -/
def enter (frame : Frame) (w : World) : World := { w with frame, outer := w.frame :: w.outer }

/-- Closes the innermost frame. -/
def leave (w : World) : World :=
  match w.outer with
  | [] => w
  | frame :: outer => { w with frame, outer }

/-- Defines a block in the innermost frame. -/
def define (block : Block) (w : World) : World :=
  { w with frame := { w.frame with blocks := w.frame.blocks ++ [block] } }

/-- Assigns a value to a name of the innermost frame.  The underscore is no
name. -/
def assign (name : String) (value : Bool) (w : World) : World :=
  if name = "_" then w else { w with frame := w.frame.bind name value }

/-- Assigns values to names, one after the other. -/
def assignAll (pairs : List (String × Bool)) (w : World) : World :=
  pairs.foldl (fun w pair => w.assign pair.1 pair.2) w

end World

/-! ## Pieces of the evaluation -/

/-- A computation of truth values that may have none. -/
abbrev Evaluation := StateT World Option

namespace Evaluation

/-- What a node evaluates to: the number of nodes that it took, itself included,
and its values. -/
structure Outcome where
  taken : Nat
  values : List Bool

/-- Evaluates a node, which the given siblings follow. -/
abbrev Evaluator := Node → List Node → Evaluation Outcome

/-- The one value of an operand. -/
def operand (ev : Evaluator) : Option Node → Evaluation Bool
  | none => failure
  | some node => do
    let outcome ← ev node []
    match outcome.values with
    | [value] => return value
    | _ => failure

/-- The values of some nodes, each of them apart. -/
def each (ev : Evaluator) : List Node → Evaluation (List Bool)
  | [] => return []
  | node :: rest => do
    let outcome ← ev node []
    let more ← each ev rest
    return outcome.values ++ more

/-- The values of the first nodes, as many nodes as there have to be for a number
of values. -/
def gather (ev : Evaluator) : Nat → List Node → Evaluation Outcome
  | 0, _ => return ⟨0, []⟩
  | _ + 1, [] => failure
  | wanted + 1, node :: rest => do
    let outcome ← ev node []
    let more ← gather ev (wanted + 1 - outcome.values.length) rest
    return ⟨more.taken + 1, outcome.values ++ more.values⟩

/-- The values of the nodes of a body or a description, without those that an
earlier node takes.  The number says how many to leave out. -/
def sequence (ev : Evaluator) : Nat → List Node → Evaluation (List (Node × List Bool))
  | _, [] => return []
  | skipped + 1, _ :: rest => sequence ev skipped rest
  | 0, node :: rest => do
    let outcome ← ev node rest
    let more ← sequence ev (outcome.taken - 1) rest
    return (node, outcome.values) :: more

/-- The values of an invocation: those of the returns of the block, in a frame in
which its parameters are bound to the arguments. -/
def invoke (ev : Evaluator) (name : String) (args : List Node) : Evaluation (List Bool) := do
  match (← get).block? name with
  | none => failure
  | some block => do
    let arguments ← each ev args
    modify (World.enter (Frame.empty.bindAll (block.params.zip arguments)))
    let parts ← sequence ev 0 block.body
    modify World.leave
    return (parts.filter fun part => part.1.isReturn).flatMap Prod.snd

/-- The value of a name.  A name that is not bound takes the next input. -/
def valueOf (name : String) : Evaluation Bool := do
  let world ← get
  match world.value? name, world.inputs with
  | some value, _ => return value
  | none, [] => failure
  | none, value :: inputs => do
    set { world with frame := world.frame.bind name value, inputs }
    return value

/-! ## Nodes -/

/-- Evaluates a node by an evaluator for the nodes inside it. -/
def evaluateNode (ev : Evaluator) (node : Node) (rest : List Node) : Evaluation Outcome :=
  match node with
  | .comment _ _ _ => return ⟨1, []⟩
  | .binary _ op lhs rhs => do
    let a ← operand ev (some lhs)
    let b ← operand ev rhs
    return ⟨1, [op.apply a b]⟩
  | .negation _ rhs => do
    let a ← operand ev rhs
    return ⟨1, [!a]⟩
  | .group _ members => do
    let values ← each ev members
    return ⟨1, values⟩
  | .invocation _ name args => do
    let values ← invoke ev name args
    return ⟨1, values⟩
  | .block _ name params outputs body => do
    modify (World.define ⟨name, params, outputs, body⟩)
    return ⟨1, []⟩
  | .returns _ => do
    let values ← each ev rest
    return ⟨rest.length + 1, values⟩
  | .imports _ _ => failure
  | .assignment _ names => do
    let outcome ← gather ev names.length rest
    modify (World.assignAll (names.zip outcome.values))
    return ⟨outcome.taken + 1, []⟩
  | .identifier _ name => do
    let value ← valueOf name
    return ⟨1, [value]⟩
  | .literal _ value => return ⟨1, [value]⟩

/-- Evaluates a node, descending no deeper than a bound. -/
def evaluator : Nat → Evaluator
  | 0 => fun _ _ => failure
  | fuel + 1 => evaluateNode (evaluator fuel)

/-- The values of the last node that is no comment, or else some that are given. -/
def lastValues (values : List Bool) (parts : List (Node × List Bool)) : List Bool :=
  ((parts.filter fun part => !part.1.isComment).getLast?.map Prod.snd).getD values

theorem lastValues_cons (values : List Bool) (part : Node × List Bool)
    (parts : List (Node × List Bool)) :
    lastValues values (part :: parts) =
      lastValues (if part.1.isComment then values else part.2) parts := by
  unfold lastValues
  cases hcomment : part.1.isComment with
  | true => simp [hcomment]
  | false =>
    rw [List.filter_cons_of_pos (by rw [hcomment]; rfl), List.getLast?_cons]
    cases (parts.filter fun part => !part.1.isComment).getLast? <;> rfl

/-- The values of a description, given the signals of the names that it uses
without assigning them. -/
def evaluate (fuel : Nat) (inputs : List Bool) (nodes : List Node) : Option (List Bool) :=
  ((sequence (evaluator fuel) 0 nodes).run ⟨.empty, [], inputs⟩).map fun result =>
    lastValues [] result.1

end Evaluation

end Gatework
