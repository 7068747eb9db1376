import Gatework.Json.Standard
import Gatework.Netlist
import Gatework.Summary.Error

/-!
# Summaries of netlists

A summary is a JSON object that holds a netlist: its gates, wires, contexts and
outputs.  It is written and read with any library for JSON.

There are five groups.

* Writing: `Summary.ofNetlist` is the summary of a netlist, and
  `Netlist.toSummaryWith` its text.
* References.  Where a summary names a wire or a context, a number stands for
  itself, and an object for its member `Id`.
* Reading gates, wires and contexts.  What may be left out is taken as empty,
  zero, false or absent, also if it is of another type.
* `Summary.toNetlist` reads a summary, and `Netlist.ofSummaryWith` its bytes.
* `Netlist.toSummary` and `Netlist.ofSummary` do so with the standard library.
-/

namespace Gatework

namespace Summary

variable {V E : Type} (lib : Json.Library V E)

/-! ## Writing -/

/-- The value of a list of wires. -/
def ofWires (ids : List WireId) : V := lib.array (ids.map fun id => lib.ofWord32 id.number)

/-- The value of a gate that may be absent. -/
def ofGateId? (id : Option GateId) : V := lib.ofOption (fun id => lib.ofWord32 id.number) id

/-- The value of a gate. -/
def ofGate (gate : Gate) : V :=
  lib.object [
    ("Id", lib.ofWord32 gate.id.number),
    ("Type", lib.ofText gate.kind.tag),
    ("Label", lib.ofText gate.label),
    ("Inputs", ofWires lib gate.inputs),
    ("Outputs", ofWires lib gate.outputs),
    ("CallingContext", lib.ofWord32 gate.context.number),
    ("State", lib.ofText gate.state)]

/-- The value of a wire. -/
def ofWire (wire : Wire) : V :=
  lib.object [
    ("Id", lib.ofWord32 wire.id.number),
    ("Desc", lib.ofOption lib.ofText wire.desc),
    ("Start", ofGateId? lib wire.start),
    ("End", ofGateId? lib wire.stop),
    ("Powered", lib.ofFlag wire.powered)]

/-- The value of a context. -/
def ofContext (context : Context) : V :=
  lib.object [
    ("Id", lib.ofWord32 context.id.number),
    ("Name", lib.ofText context.name),
    ("Depth", lib.ofWord64 context.depth),
    ("Parent", lib.ofWord32 context.parent.number),
    ("Children", lib.array (context.children.map fun id => lib.ofWord32 id.number))]

/-- The summary of a netlist. -/
def ofNetlist (n : Netlist) : V :=
  lib.object [
    ("Gates", lib.array (n.gates.map (ofGate lib))),
    ("Wires", lib.array (n.wires.wires.map (ofWire lib))),
    ("Contexts", lib.array (n.contexts.map (ofContext lib))),
    ("Outputs", ofWires lib n.outputs)]

/-! ## References -/

/-- A result of reading a part. -/
abbrev Read := Except SchemaError

/-- A member that has to be there. -/
def required (subject : Subject) (name : String) (value : V) : Read V :=
  let member := lib.member name value
  if lib.isNull member then .error (.memberMissing subject name) else .ok member

/-- A member that has to be a number. -/
def requiredNumber (subject : Subject) (name : String) (value : V) : Read UInt32 := do
  match lib.word32? (← required lib subject name value) with
  | some number => return number
  | none => .error (.notAnId subject name)

/-- A member that is a text, or else the empty text. -/
def textOr (name : String) (value : V) : String := (lib.text? (lib.member name value)).getD ""

/-- A member that is a number, or else zero. -/
def numberOr (name : String) (value : V) : UInt32 := (lib.word32? (lib.member name value)).getD 0

/-- The number that a reference names. -/
def reference (subject : Subject) (value : V) : Read UInt32 :=
  if lib.isObject value then
    requiredNumber lib subject "Id" value
  else
    match lib.word32? value with
    | some number => .ok number
    | none => .error (.malformedReference subject)

/-- The numbers that a list of references names. -/
def references (subject : Subject) (value : V) : Read (List UInt32) :=
  if lib.isNull value then
    .ok []
  else if lib.isArray value then
    (lib.items value).mapM (reference lib subject)
  else
    .error (.expectedArray subject)

/-- The number that a reference names, if there is a reference. -/
def reference? (subject : Subject) (value : V) : Read (Option UInt32) :=
  if lib.isNull value then .ok none else do return some (← reference lib subject value)

/-! ## Reading the parts -/

/-- The kind of a gate. -/
def toGateKind (subject : Subject) (value : V) : Read GateKind := do
  match lib.text? (← required lib subject "Type" value) with
  | none => .error (.nonTextType subject)
  | some tag =>
    match GateKind.ofTag? tag with
    | some kind => return kind
    | none => .error (.unknownType subject tag)

/-- The gate that a value stands for. -/
def toGate (value : V) : Read Gate := do
  let id : GateId := ⟨← requiredNumber lib (.gate none) "Id" value⟩
  let subject : Subject := .gate (some id)
  let kind ← toGateKind lib subject value
  let inputs ← references lib subject (lib.member "Inputs" value)
  let outputs ← references lib subject (lib.member "Outputs" value)
  return {
    id, kind
    label := textOr lib "Label" value
    inputs := inputs.map WireId.mk
    outputs := outputs.map WireId.mk
    context := ⟨numberOr lib "CallingContext" value⟩
    state := textOr lib "State" value }

/-- The wire that a value stands for. -/
def toWire (value : V) : Read Wire := do
  let id : WireId := ⟨← requiredNumber lib (.wire none) "Id" value⟩
  let subject : Subject := .wire (some id)
  let start ← reference? lib subject (lib.member "Start" value)
  let stop ← reference? lib subject (lib.member "End" value)
  return {
    id
    desc := lib.text? (lib.member "Desc" value)
    start := start.map GateId.mk
    stop := stop.map GateId.mk
    powered := (lib.flag? (lib.member "Powered" value)).getD false }

/-- The context that a value stands for. -/
def toContext (value : V) : Read Context := do
  let id : ContextId := ⟨← requiredNumber lib (.context none) "Id" value⟩
  let children ← references lib (.context (some id)) (lib.member "Children" value)
  return {
    id
    name := textOr lib "Name" value
    depth := (lib.word64? (lib.member "Depth" value)).getD 0
    parent := ⟨numberOr lib "Parent" value⟩
    children := children.map ContextId.mk }

/-! ## Reading the whole -/

/-- The items of a member that has to be an array. -/
def requiredItems (name : String) (summary : V) : Read (List V) := do
  let member ← required lib .summary name summary
  if lib.isArray member then return lib.items member else .error (.notAnArray name)

/-- The contexts, which may be left out. -/
def toContexts (summary : V) : Read (List Context) := do
  if lib.isNull (lib.member "Contexts" summary) then
    return []
  else
    (← requiredItems lib "Contexts" summary).mapM (toContext lib)

/-- The netlist of a summary. -/
def toNetlist (summary : V) : Read Netlist := do
  if lib.isObject summary then
    let gates ← (← requiredItems lib "Gates" summary).mapM (toGate lib)
    let wires ← (← requiredItems lib "Wires" summary).mapM (toWire lib)
    let contexts ← toContexts lib summary
    let outputs ← references lib .outputs (lib.member "Outputs" summary)
    return { Netlist.ofParts gates wires with contexts, outputs := outputs.map WireId.mk }
  else
    .error .notAnObject

end Summary

/-! ## Texts -/

namespace Netlist

variable {V E : Type} (lib : Json.Library V E)

/-- The text of the summary of a netlist. -/
def toSummaryWith (n : Netlist) : String := lib.write (Summary.ofNetlist lib n) ++ "\n"

/-- The netlist of a summary that is given as text. -/
def ofSummaryTextWith (text : String) : Except (SummaryError E) Netlist := do
  let value ← (lib.parse text).mapError .json
  (Summary.toNetlist lib value).mapError .schema

/-- The words for bytes that are no text. -/
def notText : String := "stream did not contain valid UTF-8"

/-- The netlist of a summary that is given as bytes. -/
def ofSummaryWith (bytes : ByteArray) : Except (SummaryError E) Netlist :=
  match String.fromUTF8? bytes with
  | some text => ofSummaryTextWith lib text
  | none => .error (.unreadable notText)

/-! ## The standard library -/

/-- The text of the summary of a netlist, written with the standard library. -/
def toSummary (n : Netlist) : String := n.toSummaryWith Json.standard

/-- The netlist of a summary that is given as text, read with the standard library. -/
def ofSummaryText (text : String) : Except SummaryError Netlist :=
  ofSummaryTextWith Json.standard text

/-- The netlist of a summary that is given as bytes, read with the standard library. -/
def ofSummary (bytes : ByteArray) : Except SummaryError Netlist :=
  ofSummaryWith Json.standard bytes

end Netlist

end Gatework
