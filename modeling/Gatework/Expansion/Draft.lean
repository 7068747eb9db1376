import Gatework.Expansion.Error
import Gatework.Expansion.Scope
import Gatework.Netlist

/-!
# Drafts

A draft is a netlist that an expansion is building, with the scopes that are
open and the last numbers that it has given out.

There are four groups.

* `Rebinding` and `Expanded` are the events of an expansion on which statements
  about it depend.  A draft keeps them, and nothing reads them back.
* `Draft` and the questions to its scopes.  `Draft.netlist` is what has been
  built so far.
* The changes of a draft: new wires and gates, scopes that open and close,
  definitions, and assignments.  An assignment to a name that is bound in the
  open scope rewires everything built so far, which is how feedback arises.  What
  a change does to the netlist is said beside it (`netlist_newWire`,
  `netlist_newGate`, `netlist_addContext`, `netlist_rewire`).
* `Expansion` is a computation on a draft that may halt, with the changes as
  computations.
-/

namespace Gatework

/-! ## Events -/

/-- An assignment to a name that was bound in its scope. -/
structure Rebinding where
  name : String
  /-- The wire to which the name was bound. -/
  old : WireId
  /-- The wire to which it is bound now. -/
  new : WireId
  /-- Whether a gate drove the old wire at that time. -/
  driven : Bool
deriving DecidableEq

/-- A block that has been expanded, in a scope of its own, and the wires that it
has passed out. -/
structure Expanded where
  frame : ContextId
  block : Block
  outputs : List WireId

/-! ## Drafts -/

/-- A netlist that is being built. -/
structure Draft where
  wires : Arena
  /-- The gates, latest first. -/
  gates : List Gate
  /-- The invocations, latest first. -/
  contexts : List Context
  /-- The open scope. -/
  scope : Scope
  /-- The scopes around the open one, innermost first. -/
  outer : List Scope
  lastWire : UInt32
  lastGate : UInt32
  lastFrame : UInt32
  /-- The assignments to bound names, latest first. -/
  rebindings : List Rebinding
  /-- The blocks that have been expanded, latest first. -/
  expanded : List Expanded

namespace Draft

/-- The draft before the first node. -/
def empty : Draft := ⟨.empty, [], [], .root, [], 0, 0, 0, [], []⟩

/-- What has been built so far. -/
def netlist (d : Draft) : Netlist := ⟨d.wires, d.gates.reverse, d.contexts.reverse, []⟩

/-- The open scope and those around it. -/
def scopes (d : Draft) : List Scope := d.scope :: d.outer

/-- The wire to which a name is bound. -/
def lookup? (name : String) (d : Draft) : Option WireId := Scope.lookup? name d.scopes

/-! ## Changes -/

/-- Adds a wire under the next number. -/
def newWire (desc : Option String) (d : Draft) : WireId × Draft :=
  let id : WireId := ⟨d.lastWire + 1⟩
  (id, { d with wires := d.wires.insert (.fresh id desc), lastWire := d.lastWire + 1 })

/-- Adds a gate under the next number. -/
def newGate (kind : GateKind) (label : String) (inputs outputs : List WireId)
    (context : ContextId) (d : Draft) : Draft :=
  let gate : Gate := ⟨⟨d.lastGate + 1⟩, kind, label, inputs, outputs, context, ""⟩
  { d with
    wires := d.wires.connect gate
    gates := gate :: d.gates
    lastGate := d.lastGate + 1 }

theorem netlist_newWire (desc : Option String) (d : Draft) :
    (d.newWire desc).2.netlist = d.netlist.addWire (.fresh (d.newWire desc).1 desc) := rfl

theorem netlist_newGate (kind : GateKind) (label : String) (inputs outputs : List WireId)
    (context : ContextId) (d : Draft) :
    (d.newGate kind label inputs outputs context).netlist =
      d.netlist.addGate ⟨⟨d.lastGate + 1⟩, kind, label, inputs, outputs, context, ""⟩ := by
  simp [newGate, netlist, Netlist.addGate]

/-- Takes the next number of an invocation. -/
def newFrame (d : Draft) : ContextId × Draft :=
  (⟨d.lastFrame + 1⟩, { d with lastFrame := d.lastFrame + 1 })

/-- Notes an invocation. -/
def addContext (context : Context) (d : Draft) : Draft :=
  { d with contexts := context :: d.contexts }

theorem netlist_addContext (context : Context) (d : Draft) :
    (d.addContext context).netlist = d.netlist.addContext context := by
  simp [addContext, netlist, Netlist.addContext]

/-- Opens a scope inside the open one. -/
def enter (scope : Scope) (d : Draft) : Draft := { d with scope, outer := d.scope :: d.outer }

/-- Closes the open scope. -/
def leave (d : Draft) : Draft :=
  match d.outer with
  | [] => d
  | scope :: outer => { d with scope, outer }

/-- Defines a block in the open scope. -/
def define (block : Block) (d : Draft) : Draft := { d with scope := d.scope.define block }

/-- Calls the block of a name. -/
def call? (name : String) (d : Draft) : Option (Call Draft) :=
  (Scope.call? name d.scopes).map (Call.map fun scopes =>
    match scopes with
    | [] => d
    | scope :: outer => { d with scope, outer })

/-- Binds a name in the open scope. -/
def bind (name : String) (wire : WireId) (d : Draft) : Draft :=
  { d with scope := d.scope.bind name wire }

/-- Puts one wire in the place of another, in all gates and all scopes. -/
def rewire (old new : WireId) (d : Draft) : Draft :=
  { d with
    gates := d.gates.map (Gate.rewire old new)
    scope := d.scope.rewire old new
    outer := d.outer.map (Scope.rewire old new) }

theorem netlist_rewire (old new : WireId) (d : Draft) :
    (d.rewire old new).netlist = d.netlist.replaceWire old new := by
  simp [rewire, netlist, Netlist.replaceWire]

/-- The name whose assignments bind nothing. -/
def discarded : String := "_"

/-- Notes an assignment to a bound name. -/
def noteRebinding (name : String) (old new : WireId) (d : Draft) : Draft :=
  let driven := d.gates.any fun gate => gate.outputs.contains old
  { d with rebindings := ⟨name, old, new, driven⟩ :: d.rebindings }

/-- Notes a block that has been expanded. -/
def noteExpanded (expanded : Expanded) (d : Draft) : Draft :=
  { d with expanded := expanded :: d.expanded }

/-- Assigns a wire to a name of the open scope.  The wire takes the place of the
one to which the name was bound there. -/
def assign (name : String) (wire : WireId) (d : Draft) : Draft :=
  if name = discarded then
    d
  else
    match d.scope.bindings.find? name with
    | none => d.bind name wire
    | some old =>
      let noted := d.noteRebinding name old wire
      if old = wire then noted else (noted.bind name wire).rewire old wire

/-- Assigns wires to names, one after the other. -/
def assignAll (pairs : List (String × WireId)) (d : Draft) : Draft :=
  pairs.foldl (fun d pair => d.assign pair.1 pair.2) d

end Draft

/-! ## Computations -/

/-- A computation on a draft that may halt. -/
abbrev Expansion := StateT Draft (Except Halt)

namespace Expansion

/-- Halts with a fault of the tree. -/
def fail {α : Type} (error : ExpansionError) : Expansion α := throw (.failed error)

/-- Adds a wire. -/
def newWire (desc : Option String) : Expansion WireId := modifyGet (Draft.newWire desc)

/-- Adds some wires. -/
def newWires : Nat → Expansion (List WireId)
  | 0 => return []
  | count + 1 => do
    let wire ← newWire none
    let more ← newWires count
    return wire :: more

/-- Adds a gate with one output, a new wire. -/
def newGate (kind : GateKind) (label : String) (inputs : List WireId) (context : ContextId) :
    Expansion WireId := do
  let output ← newWire none
  modify (Draft.newGate kind label inputs [output] context)
  return output

end Expansion

end Gatework
