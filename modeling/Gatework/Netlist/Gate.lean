import Gatework.Netlist.Id
import Gatework.Text.Quoted

/-!
# Gates

There are three groups.

* `GateKind` is what a gate computes, with the tag that names it.
* `Builtin` is the fixed set of components that no description can build, with
  the number of wires that each of them takes and drives.
* `Gate` is a component of a netlist, with the wires that it reads and drives.
-/

namespace Gatework

/-! ## Kinds -/

/-- What a gate computes. -/
inductive GateKind
  | conj
  | disj
  | negation
  | source
  | ground
  | blockInput
  | blockOutput
  /-- A component that keeps a state.  The label of the gate says which one. -/
  | builtin
deriving DecidableEq

namespace GateKind

/-- All kinds. -/
def all : List GateKind :=
  [.conj, .disj, .negation, .source, .ground, .blockInput, .blockOutput, .builtin]

/-- The tag that names a kind. -/
def tag : GateKind → String
  | .conj => "AND"
  | .disj => "OR"
  | .negation => "NOT"
  | .source => "SOURCE"
  | .ground => "GROUND"
  | .blockInput => "BLOCK_INPUT"
  | .blockOutput => "BLOCK_OUTPUT"
  | .builtin => "BUILTIN_FUNCTION"

/-- The kind that a tag names. -/
def ofTag? (tag : String) : Option GateKind := all.find? fun kind => kind.tag == tag

/-- The words for a tag that names no kind. -/
def unknownTagMessage (tag : String) : String := "unknown gate type " ++ Text.quoted tag

end GateKind

/-! ## Built-in components -/

/-- The components that no description can build. -/
inductive Builtin
  | led
  | wave
  | momentary
  | toggle
  | tFlipFlop
deriving DecidableEq

namespace Builtin

/-- All components. -/
def all : List Builtin := [.led, .wave, .momentary, .toggle, .tFlipFlop]

/-- The name by which descriptions invoke a component. -/
def name : Builtin → String
  | .led => "led"
  | .wave => "wave"
  | .momentary => "momentary"
  | .toggle => "toggle"
  | .tFlipFlop => "tflipflop"

/-- The least number of wires that an invocation has to pass. -/
def minInputs : Builtin → Nat
  | .led | .wave => 1
  | .momentary | .toggle => 0
  | .tFlipFlop => 2

/-- The number of wires that an invocation drives. -/
def outputs : Builtin → Nat
  | .led => 0
  | .wave | .momentary | .toggle => 1
  | .tFlipFlop => 2

/-- The component of a name. -/
def ofName? (name : String) : Option Builtin := all.find? fun builtin => builtin.name == name

end Builtin

/-! ## Gates -/

/-- A component of a netlist. -/
structure Gate where
  id : GateId
  kind : GateKind
  label : String
  inputs : List WireId
  outputs : List WireId
  context : ContextId
  /-- What a built-in component remembers between two rounds. -/
  state : String
deriving DecidableEq

namespace Gate

/-- The built-in component that a gate is, if it is one that is known. -/
def builtin? (gate : Gate) : Option Builtin :=
  match gate.kind with
  | .builtin => Builtin.ofName? gate.label
  | _ => none

/-- The number of times that a gate mentions a wire. -/
def mentions (wire : WireId) (gate : Gate) : Nat :=
  gate.inputs.count wire + gate.outputs.count wire

/-- A gate with one wire in the place of another. -/
def rewire (old new : WireId) (gate : Gate) : Gate :=
  let swap (wire : WireId) : WireId := if wire = old then new else wire
  { gate with inputs := gate.inputs.map swap, outputs := gate.outputs.map swap }

end Gate

end Gatework
