import Gatework.Netlist.Arena
import Gatework.Netlist.Gate

/-!
# Netlists

A netlist is a graph of gates that wires connect, with the tree of the
invocations that produced it.

There are four groups.

* `Context` is an invocation, and `Netlist` the whole.
* Building a netlist: adding wires, gates and contexts.
* Questions: the wire or context of an identifier, the gates that drive a wire,
  and the wire of a name that the description uses without assigning it.
* Changes: one wire in the place of another, the children of contexts, and the
  states of gates.
-/

namespace Gatework

/-! ## The data -/

/-- An invocation of a block, and its place in the tree of invocations. -/
structure Context where
  id : ContextId
  name : String
  depth : Nat
  parent : ContextId
  /-- The invocations inside this one.  `Netlist.linkContexts` fills them in. -/
  children : List ContextId
deriving DecidableEq

/-- A graph of gates that wires connect. -/
structure Netlist where
  wires : Arena
  gates : List Gate
  contexts : List Context
  outputs : List WireId

/-- The arena whose wires note a gate that takes and drives them. -/
def Arena.connect (gate : Gate) (a : Arena) : Arena :=
  let taken := gate.inputs.foldl (fun wires id => wires.setStop id gate.id) a
  gate.outputs.foldl (fun wires id => wires.setStart id gate.id) taken

namespace Netlist

/-- The netlist without parts. -/
def empty : Netlist := ⟨.empty, [], [], []⟩

/-! ## Building -/

/-- The netlist of gates and wires as they are. -/
def ofParts (gates : List Gate) (wires : List Wire) : Netlist :=
  { empty with gates, wires := .ofList wires }

/-- The netlist with a wire. -/
def addWire (wire : Wire) (n : Netlist) : Netlist := { n with wires := n.wires.insert wire }

/-- The netlist with a gate at the end, which its wires note. -/
def addGate (gate : Gate) (n : Netlist) : Netlist :=
  { n with wires := n.wires.connect gate, gates := n.gates ++ [gate] }

/-- The netlist with a context at the end. -/
def addContext (context : Context) (n : Netlist) : Netlist :=
  { n with contexts := n.contexts ++ [context] }

/-! ## Questions -/

/-- The first context of an identifier. -/
def context? (id : ContextId) (n : Netlist) : Option Context :=
  n.contexts.find? fun context => context.id == id

/-- The gates that drive a wire. -/
def drivers (wire : WireId) (n : Netlist) : List Gate :=
  n.gates.filter fun gate => gate.outputs.contains wire

/-- The wire of a name that the description uses without assigning it. -/
def input? (name : String) (n : Netlist) : Option Wire :=
  n.wires.wires.find? fun wire => wire.desc == some (Wire.implicitDesc name)

/-! ## Changes -/

/-- The netlist in which a wire is powered or not. -/
def setPowered (id : WireId) (powered : Bool) (n : Netlist) : Netlist :=
  { n with wires := n.wires.setPowered id powered }

/-- The number of times that the gates mention a wire. -/
def mentions (wire : WireId) (n : Netlist) : Nat :=
  n.gates.foldr (fun gate total => gate.mentions wire + total) 0

/-- The netlist whose gates have one wire in the place of another. -/
def replaceWire (old new : WireId) (n : Netlist) : Netlist :=
  { n with gates := n.gates.map (Gate.rewire old new) }

/-- Adds a child to the first context of an identifier. -/
def adopt (parent child : ContextId) : List Context → List Context
  | [] => []
  | context :: rest =>
    if context.id = parent then
      { context with children := context.children ++ [child] } :: rest
    else
      context :: adopt parent child rest

/-- The netlist whose contexts have the children that their parents say. -/
def linkContexts (n : Netlist) : Netlist :=
  let childless := n.contexts.map fun context => { context with children := [] }
  let inner := n.contexts.filter fun context => !context.parent.isRoot
  let linked := inner.foldl (fun all child => adopt child.parent child.id all) childless
  { n with contexts := linked }

/-- The netlist in which the chosen gates have a state. -/
def setState (chosen : Gate → Bool) (state : String) (n : Netlist) : Netlist :=
  { n with gates := n.gates.map fun gate => if chosen gate then { gate with state } else gate }

end Netlist

end Gatework
