import Gatework.Expansion.Draft

/-!
# Netlists from trees

`Netlist.ofForest` turns a circuit description into a netlist.  A block is
expanded at each of its invocations, in a scope of its own.

There are five groups.

* `Step` expands a node, and may take the siblings after it.  The pieces below
  are written for any step, so that the recursion is tied once.
* Operands, and the values of nodes one by one.
* Assignments and returns, which take sibling values.
* Invocations of built-in components and of blocks.
* `expandNode` is the expansion of one node, `step` ties the recursion by a
  bound on its depth, and `nestingBound` is the bound that a limit on the depth
  of invocations gives.  `Draft.ofForest` expands a whole description.
-/

namespace Gatework

namespace Expansion

/-! ## Steps -/

/-- What a node yields: the number of siblings that it took, itself included,
and its values. -/
structure Yield where
  taken : Nat
  values : List WireId

/-- Expands a node, which the given siblings follow. -/
abbrev Step := Node → List Node → Expansion Yield

/-- The yield of a node that takes no other. -/
def Yield.single (values : List WireId) : Yield := ⟨1, values⟩

/-! ## Values of nodes -/

/-- The one value of an operand. -/
def operand (step : Step) (kind : TokenKind) (side : Side) (pos : Position) :
    Option Node → Expansion WireId
  | none => fail (.missingOperand kind side pos)
  | some node => do
    let yield ← step node []
    match yield.values with
    | [wire] => return wire
    | values => fail (.arity kind side values.length pos)

/-- The values of some nodes, each node apart. -/
def valuesEach (step : Step) : List Node → Expansion (List (List WireId))
  | [] => return []
  | node :: rest => do
    let yield ← step node []
    let more ← valuesEach step rest
    return yield.values :: more

/-- Adds a gate of the open scope with one output. -/
def gateHere (kind : GateKind) (inputs : List WireId) : Expansion Yield := do
  let output ← newGate kind "" inputs (← get).scope.id
  return .single [output]

/-- The kind of gate that a binary operator makes. -/
def connectiveGate : Connective → GateKind
  | .conj => .conj
  | .disj => .disj

/-! ## Assignments and returns -/

/-- Takes siblings until there is a value for each name. -/
def assignedValues (step : Step) (pos : Position) (names : List String)
    (values : List WireId) (taken : Nat) : List Node → Expansion Yield
  | [] =>
    if values.length < names.length then
      fail (.assignmentUnderflow names.length values.length pos)
    else
      return ⟨taken, values⟩
  | node :: rest =>
    if h : values.length < names.length then
      if node.isValue then do
        let yield ← step node []
        if yield.values.isEmpty then
          fail (.noValue node.pos)
        else
          assignedValues step pos names (values ++ yield.values) (taken + 1) rest
      else
        fail (.notAnExpression node.kind names[values.length] node.pos)
    else
      return ⟨taken, values⟩

/-- Assigns the values of siblings to names. -/
def assignment (step : Step) (pos : Position) (names : List String) (rest : List Node) :
    Expansion Yield := do
  let yield ← assignedValues step pos names [] 1 rest
  modify (Draft.assignAll (names.zip yield.values))
  return ⟨yield.taken, []⟩

/-- Takes all siblings, which have to make up the values of a block. -/
def returnedValues (step : Step) (pos : Position) (block : Block)
    (values : List WireId) (taken : Nat) : List Node → Expansion Yield
  | [] =>
    if values.length < block.outputs then
      fail (.missingReturnValues block.name block.outputs values.length pos)
    else
      return ⟨taken, values⟩
  | node :: rest =>
    if values.length < block.outputs then do
      let yield ← step node []
      if yield.values.isEmpty then
        fail (.noValue node.pos)
      else
        returnedValues step pos block (values ++ yield.values) (taken + 1) rest
    else
      fail (.tooManyReturnValues block.name block.outputs (values.length + (rest.length + 1))
        pos)

/-- Returns the values of siblings from the block that is being expanded. -/
def blockReturn (step : Step) (pos : Position) (rest : List Node) : Expansion Yield := do
  match (← get).scope.enclosing with
  | some block => returnedValues step pos block [] 1 rest
  | none => fail (.noEnclosingBlock pos)

/-! ## Invocations -/

/-- Invokes a built-in component. -/
def invokeBuiltin (step : Step) (pos : Position) (builtin : Builtin) (args : List Node) :
    Expansion (List WireId) := do
  let inputs := (← valuesEach step args).flatten
  if inputs.length < builtin.minInputs then
    fail (.builtinArity builtin.name builtin.minInputs inputs.length pos)
  else
    let outputs ← newWires builtin.outputs
    modify fun d => d.newGate .builtin builtin.name inputs outputs d.scope.id
    return outputs

/-- The values of arguments, each with the place of its argument. -/
def placed (arguments : List (List WireId)) : List (Nat × WireId) :=
  arguments.zipIdx.flatMap fun argument => argument.1.map fun wire => (argument.2, wire)

/-- Passes values to the parameters of a block, and gives the parameters'
bindings. -/
def passInputs (block : Block) (count : Nat) (frame : ContextId) (bindings : Bindings) :
    List ((Nat × WireId) × String) → Expansion Bindings
  | [] => return bindings
  | ((place, wire), param) :: rest => do
    let label := s!"Input {place} into block {block.name} invocation {count}"
    let bound ← newGate .blockInput label [wire] frame
    passInputs block count frame (bindings.insert param bound) rest

/-- Passes values out of a block, from a place on. -/
def passOutputs (block : Block) (count : Nat) (frame : ContextId) (place : Nat) :
    List WireId → Expansion (List WireId)
  | [] => return []
  | wire :: rest => do
    let label := s!"Output {place} from block {block.name} invocation {count}"
    let output ← newGate .blockOutput label [wire] frame
    let more ← passOutputs block count frame (place + 1) rest
    return output :: more

/-- Expands the body of a block, and gives the values that it passes out.  The
number says how many nodes to leave out, since an earlier one took them. -/
def expandBody (step : Step) (block : Block) (count : Nat) (frame : ContextId) :
    Nat → List Node → Expansion (List WireId)
  | _, [] => return []
  | skipped + 1, _ :: rest => expandBody step block count frame skipped rest
  | 0, node :: rest => do
    let yield ← step node rest
    let outputs ←
      if node.isReturn then passOutputs block count frame 0 yield.values else pure []
    let more ← expandBody step block count frame (yield.taken - 1) rest
    return outputs ++ more

/-- Whether a stack of scopes is higher than a limit.  The limit zero is none. -/
def exceeds (limit : UInt64) (scopes : Nat) : Bool := limit != 0 && limit.toNat < scopes

/-- Invokes a block. -/
def invokeBlock (limit : UInt64) (step : Step) (pos : Position) (name : String)
    (args : List Node) : Expansion (List WireId) := do
  match (← get).call? name with
  | none => fail (.unknownBlock name pos)
  | some call => do
    set call.holder
    let block := call.block
    let arguments := placed (← valuesEach step args)
    if block.params.length < arguments.length then
      fail (.tooManyArguments block.name block.params.length arguments.length pos)
    else
      let frame ← modifyGet Draft.newFrame
      let bindings ← passInputs block call.count frame [] (arguments.zip block.params)
      let around := (← get).scopes
      if exceeds limit (around.length + 1) then
        fail (.depthExceeded block.name limit.toNat pos)
      else
        let parent := (← get).scope.id
        modify (Draft.addContext ⟨frame, block.name, around.length, parent, []⟩)
        modify (Draft.enter ⟨frame, bindings, [], some block⟩)
        let outputs ← expandBody step block call.count frame 0 block.body
        modify Draft.leave
        modify (Draft.noteExpanded ⟨frame, block, outputs⟩)
        return outputs

/-- Invokes a built-in component or else a block. -/
def invoke (limit : UInt64) (step : Step) (pos : Position) (name : String)
    (args : List Node) : Expansion (List WireId) :=
  match Builtin.ofName? name with
  | some builtin => invokeBuiltin step pos builtin args
  | none => invokeBlock limit step pos name args

/-! ## Nodes -/

/-- The wire of a name.  A name that is not bound gets a wire of its own. -/
def wireOf (name : String) : Expansion WireId := do
  match (← get).lookup? name with
  | some wire => return wire
  | none => do
    let wire ← newWire (some (Wire.implicitDesc name))
    modify (Draft.bind name wire)
    return wire

/-- Expands a node by a step for the nodes inside it. -/
def expandNode (limit : UInt64) (step : Step) (node : Node) (rest : List Node) :
    Expansion Yield :=
  match node with
  | .comment _ _ _ => return .single []
  | .binary pos op lhs rhs => do
    let a ← operand step op.kind .left pos (some lhs)
    let b ← operand step op.kind .right pos rhs
    gateHere (connectiveGate op) [a, b]
  | .negation pos rhs => do
    let a ← operand step .negation .right pos rhs
    gateHere .negation [a]
  | .group _ members => return .single (← valuesEach step members).flatten
  | .invocation pos name args => return .single (← invoke limit step pos name args)
  | .block _ name params outputs body => do
    modify (Draft.define ⟨name, params, outputs, body⟩)
    return .single []
  | .returns pos => blockReturn step pos rest
  | .imports pos _ => fail (.unexpectedToken .imports pos)
  | .assignment pos names => assignment step pos names rest
  | .identifier _ name => return .single [← wireOf name]
  | .literal _ value => gateHere (if value then .source else .ground) []

/-- Expands a node, descending no deeper than a bound. -/
def step (limit : UInt64) : Nat → Step
  | 0 => fun _ _ => throw .unfinished
  | fuel + 1 => expandNode limit (step limit fuel)

/-- Expands the nodes of a description, and gives the values of the last one that
is no comment.  The number says how many nodes to leave out. -/
def expandAll (step : Step) (values : List WireId) :
    Nat → List Node → Expansion (List WireId)
  | _, [] => return values
  | skipped + 1, _ :: rest => expandAll step values skipped rest
  | 0, node :: rest => do
    let yield ← step node rest
    expandAll step (if node.isComment then values else yield.values) (yield.taken - 1) rest

/-- The greatest number of scopes that are open at once. -/
def scopeBound (limit : UInt64) : Nat := if limit = 0 then UInt64.size else limit.toNat

/-- A bound on the depth to which the expansion of a description descends: in
each scope it can go down a tree once, and go over to a sibling before. -/
def nestingBound (limit : UInt64) (nodes : List Node) : Nat :=
  scopeBound limit * (Node.heightAll nodes + 2)

end Expansion

/-- The limit on open scopes that applies unless another is given. -/
def defaultLimit : UInt64 := 100

/-- The finished draft of a description, with the values of its last node. -/
def Draft.ofForest (limit : UInt64) (nodes : List Node) :
    Except Halt (List WireId × Draft) :=
  let step := Expansion.step limit (Expansion.nestingBound limit nodes)
  (Expansion.expandAll step [] 0 nodes).run .empty

/-- The netlist of a description.  The limit bounds the number of scopes that are
open at once, that of the description included; zero is no limit. -/
def Netlist.ofForest (limit : UInt64) (nodes : List Node) : Except Halt Netlist := do
  let (outputs, draft) ← Draft.ofForest limit nodes
  return { draft.netlist with outputs }.linkContexts

end Gatework
