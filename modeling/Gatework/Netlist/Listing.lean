import Gatework.Netlist

/-!
# Listings of netlists

A listing shows a netlist as text: a line for each context, wire and gate, and
one for the outputs.

There are two groups.

* The lines of contexts, wires and gates.
* `Netlist.listing` is the whole.
-/

namespace Gatework

open Text

/-! ## Lines -/

/-- Texts with a space in front of each. -/
def spaced (texts : List String) : String := String.join (texts.map (" " ++ ·))

/-- The line of a context. -/
def Context.text (context : Context) : String :=
  s!"{context.id.text} = context " ++ quoted context.name ++
    s!" depth {context.depth} parent {context.parent.text}" ++
    (if context.children.isEmpty then "" else
      " children" ++ spaced (context.children.map ContextId.text))

/-- The line of a wire. -/
def Wire.text (wire : Wire) : String :=
  s!"{wire.id.text} = wire " ++ (if wire.powered then "1" else "0") ++
    (match wire.desc with
      | some desc => " " ++ quoted desc
      | none => "")

/-- A word and a quoted text, or nothing if the text is empty. -/
def quotedUnlessEmpty (word text : String) : String :=
  if text.isEmpty then "" else word ++ quoted text

/-- The line of a gate. -/
def Gate.text (gate : Gate) : String :=
  s!"{gate.id.text} = {gate.kind.tag}" ++ quotedUnlessEmpty " " gate.label ++
    spaced (gate.inputs.map WireId.text) ++ " ->" ++ spaced (gate.outputs.map WireId.text) ++
    s!" {gate.context.text}" ++ quotedUnlessEmpty " state " gate.state

/-! ## The whole -/

/-- A netlist as text. -/
def Netlist.listing (n : Netlist) : String :=
  String.join (n.contexts.map fun context => context.text ++ "\n") ++
    String.join (n.wires.wires.map fun wire => wire.text ++ "\n") ++
    String.join (n.gates.map fun gate => gate.text ++ "\n") ++
    "outputs" ++ spaced (n.outputs.map WireId.text) ++ "\n"

end Gatework
