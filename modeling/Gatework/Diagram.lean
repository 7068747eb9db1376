import Gatework.Netlist
import Std.Data.HashMap

/-!
# Diagrams of netlists

A diagram shows a netlist as a directed graph in the DOT language.  Each gate is
a record with a field for every input, each calling context is a cluster, and
each connection is an edge that is red while its wire is powered.

There are seven groups.

* Ordered sets, as ascending lists.
* Labels, in which the characters with a meaning in records are escaped.
* `Edge` is a connection, and `Box` a gate with its cluster and the connections
  to its inputs.
* `Cluster` is a context with the cluster that it stands in.
* Hubs, which are the gates that feed many others.  `Netlist.hubs` is the table
  of them, and answers what `Netlist.uses?` answers (`getElem?_hubs`).
* `Diagram` is a netlist with its boxes, clusters and hubs.  A hub gets a stub,
  and loses the edges to gates that have other inputs besides.
* The lines of boxes, clusters and edges, and `Netlist.diagram`, the whole.
-/

namespace Gatework

/-! ## Ordered sets -/

/-- An ascending list with an element, once. -/
def insertAscending {α : Type} [DecidableEq α] [LT α] [DecidableLT α] (a : α) :
    List α → List α
  | [] => [a]
  | b :: rest =>
    if a = b then b :: rest
    else if a < b then a :: b :: rest
    else b :: insertAscending a rest

/-- The elements of a list in ascending order, each once. -/
def ascending {α : Type} [DecidableEq α] [LT α] [DecidableLT α] (items : List α) : List α :=
  items.foldr insertAscending []

/-! ## Labels -/

/-- The characters that have a meaning in the label of a record. -/
def isRecordMark (c : Char) : Bool :=
  c == '"' || c == '\\' || c == '\x7b' || c == '\x7d' || c == '|' || c == '<' || c == '>'

/-- A text with a backslash before each character that has a meaning in
records. -/
def escapeLabel (text : List Char) : List Char :=
  text.flatMap fun c => if isRecordMark c then ['\\', c] else [c]

@[simp] theorem escapeLabel_append (a b : List Char) :
    escapeLabel (a ++ b) = escapeLabel a ++ escapeLabel b := by
  simp [escapeLabel]

/-- A text with its marks escaped. -/
def recordLabel (text : String) : String := String.ofList (escapeLabel text.toList)

/-! ## Boxes -/

/-- A connection from a gate along a wire to an input of another gate. -/
structure Edge where
  source : GateId
  wire : WireId
  input : Nat
deriving DecidableEq

/-- Connections are ordered by their gates, then their wires, then their
inputs. -/
instance : LT Edge := ⟨fun a b =>
  a.source < b.source ∨ a.source = b.source ∧
    (a.wire < b.wire ∨ a.wire = b.wire ∧ a.input < b.input)⟩

instance : DecidableLT Edge := fun a b =>
  inferInstanceAs (Decidable (a.source < b.source ∨ a.source = b.source ∧
    (a.wire < b.wire ∨ a.wire = b.wire ∧ a.input < b.input)))

/-- A gate with the cluster that it stands in and the connections to its
inputs. -/
structure Box where
  gate : Gate
  cluster : ContextId
  edges : List Edge

namespace Box

/-- The connections to the inputs of a gate: one from each gate that drives the
wire of an input. -/
def edgesOf (n : Netlist) (gate : Gate) : List Edge :=
  let inputs := gate.inputs.zipIdx
  ascending (n.gates.flatMap fun driver =>
    (inputs.filter fun input => driver.outputs.contains input.1).map fun input =>
      ⟨driver.id, input.1, input.2⟩)

/-- The cluster in which a gate stands: its context, if that is known. -/
def clusterOf (n : Netlist) (gate : Gate) : ContextId :=
  if (n.context? gate.context).isSome then gate.context else .root

/-- The box of a gate. -/
def ofGate (n : Netlist) (gate : Gate) : Box := ⟨gate, clusterOf n gate, edgesOf n gate⟩

/-- The text in the field of a gate itself. -/
def title (box : Box) : String :=
  let gate := box.gate
  s!"{gate.id.text} = {gate.kind.tag}" ++
    (if gate.label.isEmpty then "" else " " ++ Text.quoted gate.label) ++
    (if gate.state.isEmpty then "" else " state " ++ Text.quoted gate.state)

/-- The record of a gate: a field for itself, and one for each input. -/
def record (box : Box) : String :=
  "<out> " ++ recordLabel box.title ++
    String.join (box.gate.inputs.zipIdx.map fun input =>
      s!" | <arg{input.2}> " ++ recordLabel input.1.text)

end Box

/-! ## Clusters -/

/-- A context with the cluster that it stands in. -/
structure Cluster where
  context : ContextId
  around : ContextId

namespace Cluster

/-- The cluster in which a context stands: its parent, if that is another one and
known. -/
def aroundOf (n : Netlist) (context : Context) : ContextId :=
  if (n.context? context.parent).isSome && context.parent != context.id then
    context.parent
  else
    .root

/-- The cluster of a context. -/
def ofContext (n : Netlist) (context : Context) : Cluster := ⟨context.id, aroundOf n context⟩

end Cluster

/-! ## Hubs -/

/-- The least number of gates that a hub feeds. -/
def manyUses : Nat := 10

namespace Netlist

/-- The wires that the gates of an identifier drive. -/
def outputsOf (n : Netlist) (gate : GateId) : List WireId :=
  (n.gates.filter fun source => source.id == gate).flatMap Gate.outputs

/-- The gates that a gate feeds, each once. -/
def fed (n : Netlist) (gate : GateId) : List GateId :=
  let outputs := n.outputsOf gate
  ascending ((n.gates.filter fun target => target.inputs.any outputs.contains).map Gate.id)

/-- The number of gates that a gate feeds, if it is a hub. -/
def uses? (n : Netlist) (gate : GateId) : Option Nat :=
  let uses := (n.fed gate).length
  if manyUses ≤ uses then some uses else none

/-- The table of the hubs among gates. -/
def hubsOf (n : Netlist) : List Gate → Std.HashMap GateId Nat
  | [] => ∅
  | gate :: rest =>
    match n.uses? gate.id with
    | some uses => (n.hubsOf rest).insert gate.id uses
    | none => n.hubsOf rest

/-- The table of the hubs. -/
def hubs (n : Netlist) : Std.HashMap GateId Nat := n.hubsOf n.gates

theorem getElem?_hubsOf (n : Netlist) (gates : List Gate) (id : GateId) :
    (n.hubsOf gates)[id]? = if id ∈ gates.map Gate.id then n.uses? id else none := by
  induction gates with
  | nil => simp [hubsOf]
  | cons gate rest ih =>
    by_cases same : gate.id = id
    · subst same
      cases h : n.uses? gate.id <;> simp [hubsOf, ih, h]
    · have other : id ∈ (gate :: rest).map Gate.id ↔ id ∈ rest.map Gate.id := by
        simp [Ne.symm same]
      cases h : n.uses? gate.id <;>
        simp only [hubsOf, h, other, ih, Std.HashMap.getElem?_insert, beq_iff_eq, same, if_false]

/-- An identifier of no gate is that of no hub. -/
theorem uses?_eq_none {n : Netlist} {id : GateId} (h : id ∉ n.gates.map Gate.id) :
    n.uses? id = none := by
  have outputs : n.outputsOf id = [] := by
    rw [outputsOf, List.filter_eq_nil_iff.2, List.flatMap_nil]
    intro gate hgate hid
    exact h (List.mem_map.2 ⟨gate, hgate, by simpa using hid⟩)
  have fed : n.fed id = [] := by
    simp only [fed, outputs]
    rw [List.filter_eq_nil_iff.2 (by simp)]
    rfl
  simp [uses?, fed, manyUses]

/-- The table holds the hubs with their uses. -/
theorem getElem?_hubs (n : Netlist) (id : GateId) : n.hubs[id]? = n.uses? id := by
  rw [hubs, getElem?_hubsOf]
  split
  · rfl
  · rename_i h
    exact (uses?_eq_none h).symm

end Netlist

/-! ## Diagrams -/

/-- A netlist with its boxes in the order of the gates, its clusters in the order
of the contexts, and its hubs with the number of gates that each feeds. -/
structure Diagram where
  netlist : Netlist
  boxes : List Box
  clusters : List Cluster
  hubs : Std.HashMap GateId Nat

namespace Diagram

/-- The diagram of a netlist. -/
def ofNetlist (n : Netlist) : Diagram :=
  ⟨n, n.gates.map (Box.ofGate n), n.contexts.map (Cluster.ofContext n), n.hubs⟩

/-- The number of gates that a gate feeds, if it is a hub. -/
def uses? (d : Diagram) (gate : GateId) : Option Nat := d.hubs[gate]?

theorem uses?_ofNetlist (n : Netlist) : (ofNetlist n).uses? = n.uses? :=
  funext n.getElem?_hubs

/-- The boxes of a cluster. -/
def boxesIn (d : Diagram) (cluster : ContextId) : List Box :=
  d.boxes.filter fun box => box.cluster == cluster

/-- The contexts of the clusters in a cluster. -/
def clustersIn (d : Diagram) (cluster : ContextId) : List ContextId :=
  (d.clusters.filter fun inner => inner.around == cluster).map Cluster.context

/-- All boxes, cluster by cluster in ascending order. -/
def boxesByCluster (d : Diagram) : List Box :=
  (ascending (d.boxes.map Box.cluster)).flatMap d.boxesIn

/-! ## Lines -/

/-- The spaces in front of a line at a depth. -/
def indent (depth : Nat) : String := String.ofList (List.replicate (2 * depth) ' ')

/-- The lines of a box and its stub. -/
def boxLines (d : Diagram) (depth : Nat) (box : Box) : String :=
  let number := box.gate.id.number.toNat
  indent depth ++ s!"node_{number} [shape=record label=\"" ++ box.record ++ "\"];\n" ++
    match d.uses? box.gate.id with
    | some count => indent depth ++ s!"stub_{number} [label=\"{count} uses\"];\n"
    | none => ""

/-- The lines of a cluster's boxes and of the clusters inside it.  The first
argument bounds the descent. -/
def clusterLines (d : Diagram) : Nat → Nat → ContextId → String
  | 0, _, _ => ""
  | fuel + 1, depth, cluster =>
    String.join ((d.boxesIn cluster).map (d.boxLines depth)) ++
      String.join ((d.clustersIn cluster).map fun child =>
        match d.netlist.context? child with
        | none => ""
        | some context =>
          indent depth ++ s!"subgraph cluster_{child.number.toNat} \x7b\n" ++
            indent (depth + 1) ++ "label=\"" ++ recordLabel context.name ++
            s!" {child.text}\";\n" ++ clusterLines d fuel (depth + 1) child ++
            indent depth ++ "\x7d\n")

/-- The line of an edge to a gate. -/
def edgeLine (d : Diagram) (target : GateId) (edge : Edge) : String :=
  s!"  node_{edge.source.number.toNat}:out -> node_{target.number.toNat}:arg{edge.input}" ++
    (if d.netlist.wires.isPowered edge.wire then " [color=red]" else "") ++ ";\n"

/-- The edges to a box that are drawn: the only one, or those that are not from
hubs. -/
def drawnEdges (d : Diagram) (box : Box) : List Edge :=
  match box.edges with
  | [edge] => [edge]
  | edges => edges.filter fun edge => (d.uses? edge.source).isNone

/-- The lines of the edges to a box, and of the edge from it to its stub. -/
def edgeLines (d : Diagram) (box : Box) : String :=
  let number := box.gate.id.number.toNat
  String.join ((d.drawnEdges box).map (d.edgeLine box.gate.id)) ++
    (if (d.uses? box.gate.id).isSome then s!"  node_{number}:out -> stub_{number};\n" else "")

/-- The text of a diagram.  Clusters are nested no deeper than there are
contexts. -/
def text (d : Diagram) : String :=
  "digraph \x7b\n  rankdir=LR;\n  node [fontname=\"monospace\"];\n" ++
    d.clusterLines (d.netlist.contexts.length + 1) 1 .root ++
    String.join (d.boxesByCluster.map d.edgeLines) ++ "\x7d\n"

end Diagram

/-- A netlist as a directed graph. -/
def Netlist.diagram (n : Netlist) : String := (Diagram.ofNetlist n).text

end Gatework
