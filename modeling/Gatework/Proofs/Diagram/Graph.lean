import Gatework.Diagram
import Mathlib.Logic.Relation

/-!
# Graphs that diagrams write

A diagram is the text of a graph, and this module says what graph that has to be.

There are three groups.

* `Graph` is what a diagram lists: the nodes and clusters, which are nested, and the edges.
  `Graph.text` writes one line for each node and edge, and `Graph.entries` tells in which
  cluster each node and each cluster stands.
* What a netlist has to show: the clusters in which gates and contexts belong
  (`Netlist.Places`), and the connections of the gates (`Netlist.Draws`).
* `Graph.Depicts` says that a graph shows this, all of it and each thing once.
-/

namespace Gatework

namespace Diagram

/-! ## Graphs -/

/-- What stands in a cluster. -/
inductive Item
  /-- The node of a gate. -/
  | record (gate : GateId) (label : String)
  /-- The stub of a gate. -/
  | stub (gate : GateId) (uses : Nat)
  /-- The cluster of a context. -/
  | cluster (context : ContextId) (label : String) (inside : List Item)

namespace Item

/-- The cluster of a context, without what is inside it. -/
def ofContext (context : Context) : Item :=
  cluster context.id (recordLabel context.name ++ " " ++ context.id.text) []

mutual

/-- The lines of an item at a depth. -/
def text (depth : Nat) : Item → String
  | record gate label =>
    indent depth ++ s!"node_{gate.number.toNat} [shape=record label=\"" ++ label ++ "\"];\n"
  | stub gate uses => indent depth ++ s!"stub_{gate.number.toNat} [label=\"{uses} uses\"];\n"
  | cluster context label inside =>
    indent depth ++ s!"subgraph cluster_{context.number.toNat} \x7b\n" ++
      indent (depth + 1) ++ "label=\"" ++ label ++ "\";\n" ++ textAll (depth + 1) inside ++
      indent depth ++ "\x7d\n"

/-- The lines of some items. -/
def textAll (depth : Nat) : List Item → String
  | [] => ""
  | item :: rest => item.text depth ++ textAll depth rest

end

mutual

/-- An item and those inside it, each with the cluster that it stands in.  A cluster is
listed without what is inside it. -/
def entries (around : ContextId) : Item → List (ContextId × Item)
  | cluster context label inside =>
    (around, cluster context label []) :: entriesAll context inside
  | item => [(around, item)]

/-- The entries of some items. -/
def entriesAll (around : ContextId) : List Item → List (ContextId × Item)
  | [] => []
  | item :: rest => item.entries around ++ entriesAll around rest

end

theorem textAll_append (depth : Nat) (front back : List Item) :
    textAll depth (front ++ back) = textAll depth front ++ textAll depth back := by
  induction front with
  | nil => rfl
  | cons item front ih => rw [List.cons_append, textAll, textAll, ih, String.append_assoc]

theorem entriesAll_append (around : ContextId) (front back : List Item) :
    entriesAll around (front ++ back) = entriesAll around front ++ entriesAll around back := by
  induction front with
  | nil => rfl
  | cons item front ih => rw [List.cons_append, entriesAll, entriesAll, ih, List.append_assoc]

variable {α : Type}

theorem textAll_flatMap (depth : Nat) (items : α → List Item) (things : List α) :
    textAll depth (things.flatMap items) =
      String.join (things.map fun thing => textAll depth (items thing)) := by
  induction things with
  | nil => rfl
  | cons thing things ih =>
    rw [List.flatMap_cons, textAll_append, List.map_cons, String.join_cons, ih]

theorem entriesAll_flatMap (around : ContextId) (items : α → List Item) (things : List α) :
    entriesAll around (things.flatMap items) =
      things.flatMap fun thing => entriesAll around (items thing) := by
  induction things with
  | nil => rfl
  | cons thing things ih => rw [List.flatMap_cons, entriesAll_append, List.flatMap_cons, ih]

end Item

/-- An edge of a graph. -/
inductive Arrow
  /-- The edge from a gate to an input of another one, which may be red. -/
  | connection (source target : GateId) (input : Nat) (red : Bool)
  /-- The edge from a gate to its stub. -/
  | uses (gate : GateId)
deriving DecidableEq

/-- The line of an edge. -/
def Arrow.text : Arrow → String
  | connection source target input red =>
    s!"  node_{source.number.toNat}:out -> node_{target.number.toNat}:arg{input}" ++
      (if red then " [color=red]" else "") ++ ";\n"
  | uses gate => s!"  node_{gate.number.toNat}:out -> stub_{gate.number.toNat};\n"

/-- A graph of nodes in nested clusters. -/
structure Graph where
  items : List Item
  arrows : List Arrow

namespace Graph

/-- The text of a graph: the lines of its items, and then those of its edges. -/
def text (graph : Graph) : String :=
  "digraph \x7b\n  rankdir=LR;\n  node [fontname=\"monospace\"];\n" ++
    Item.textAll 1 graph.items ++ String.join (graph.arrows.map Arrow.text) ++ "\x7d\n"

/-- All items of a graph, each with the cluster that it stands in.  The root stands for the
graph itself. -/
def entries (graph : Graph) : List (ContextId × Item) := Item.entriesAll .root graph.items

end Graph

end Diagram

/-! ## What there is to show -/

namespace Netlist

/-- A gate drives the wire of an input of another gate. -/
def Connects (n : Netlist) (source target : Gate) (input : Nat) (wire : WireId) : Prop :=
  source ∈ n.gates ∧ target ∈ n.gates ∧ target.inputs[input]? = some wire ∧
    wire ∈ source.outputs

/-- Two connections, or more, come to a gate. -/
def Joins (n : Netlist) (target : Gate) : Prop :=
  ∃ source input wire source' input' wire', n.Connects source target input wire ∧
    n.Connects source' target input' wire' ∧ (source ≠ source' ∨ input ≠ input')

/-- The number of gates that a gate feeds. -/
def fanout (n : Netlist) (source : Gate) : Nat :=
  (n.gates.filter fun target => target.inputs.any source.outputs.contains).length

/-- The cluster of a context, if the context is recorded. -/
def clusterOf (n : Netlist) (id : ContextId) : ContextId :=
  if id ∈ n.contexts.map Context.id then id else .root

/-- The cluster around that of a context: the parent's, unless the context is its own
parent. -/
def clusterAround (n : Netlist) (context : Context) : ContextId :=
  if context.parent = context.id then .root else n.clusterOf context.parent

/-- A context has another one as its parent. -/
def ParentLink (n : Netlist) (id parent : ContextId) : Prop :=
  ∃ context ∈ n.contexts, context.id = id ∧ context.parent = parent ∧ parent ≠ id

/-- A netlist whose gates and contexts have identifiers of their own, and whose parent links
do not go round through several contexts. -/
structure Drawable (n : Netlist) : Prop where
  gates : (n.gates.map Gate.id).Nodup
  contexts : (n.contexts.map Context.id).Nodup
  ne_root : ∀ context ∈ n.contexts, context.id ≠ .root
  acyclic : ∀ id, ¬Relation.TransGen n.ParentLink id id

open Diagram

/-- What stands in a cluster: the clusters of the contexts that belong there, the nodes of
the gates that do, and the stubs of those of them that feed ten gates or more. -/
def Places (n : Netlist) (around : ContextId) (item : Item) : Prop :=
  (∃ context ∈ n.contexts, around = n.clusterAround context ∧ item = .ofContext context) ∨
  (∃ gate ∈ n.gates, around = n.clusterOf gate.context ∧
    item = .record gate.id (Box.ofGate n gate).record) ∨
  ∃ gate ∈ n.gates, 10 ≤ n.fanout gate ∧ around = n.clusterOf gate.context ∧
    item = .stub gate.id (n.fanout gate)

/-- What edges there are: one for each connection, unless it comes from a gate that feeds ten
gates or more and is not the only one to its target, and one from each such gate to its
stub. -/
def Draws (n : Netlist) (arrow : Arrow) : Prop :=
  (∃ source target input wire, n.Connects source target input wire ∧
    ¬(10 ≤ n.fanout source ∧ n.Joins target) ∧
    arrow = .connection source.id target.id input (n.wires.isPowered wire)) ∨
  ∃ gate ∈ n.gates, 10 ≤ n.fanout gate ∧ arrow = .uses gate.id

end Netlist

/-- A graph shows all that a netlist has to show, each thing once, and nothing else. -/
structure Diagram.Graph.Depicts (graph : Diagram.Graph) (n : Netlist) : Prop where
  nodup_entries : graph.entries.Nodup
  nodup_arrows : graph.arrows.Nodup
  mem_entries : ∀ around item, (around, item) ∈ graph.entries ↔ n.Places around item
  mem_arrows : ∀ arrow, arrow ∈ graph.arrows ↔ n.Draws arrow

end Gatework
