import Gatework.Diagram

/-!
# Texts in diagrams

The labels and states of gates and the names of contexts are texts that anyone may choose.  A
diagram shows them between double quotes, and none of them gets out of there.

There are five groups.

* `bare` reads a text of the DOT language, and empties its quoted strings.  Two texts are
  `Alike` if the same is left of them.
* Labels: a text with its marks escaped stays between its quotes, and can be had back.
* `Netlist.untitled` is a netlist without these texts.  It has the same boxes, clusters and
  edges.
* The lines of the two diagrams are alike, one sort of line after the other.
* `bare_diagram_eq`: what is not quoted is the same whatever the texts are.
-/

namespace Gatework

/-! ## Quoted strings -/

/-- Whether a reader is in a quoted string. -/
inductive Quoting
  | outside
  | inside
  /-- Behind a backslash in a quoted string, which escapes the next character. -/
  | escaped
deriving DecidableEq

namespace Quoting

def next : Quoting → Char → Quoting
  | outside, c => if c = '"' then inside else outside
  | inside, c => if c = '"' then outside else if c = '\\' then escaped else inside
  | escaped, _ => inside

/-- Whether a character is left when quoted strings are emptied. -/
def leaves : Quoting → Char → Bool
  | outside, _ => true
  | inside, c => c = '"'
  | escaped, _ => false

/-- Where a reader is behind a text. -/
def behind (start : Quoting) (text : List Char) : Quoting := text.foldl next start

/-- What is left of a text. -/
def bare : Quoting → List Char → List Char
  | _, [] => []
  | start, c :: cs =>
    if start.leaves c then c :: (start.next c).bare cs else (start.next c).bare cs

theorem behind_append (start : Quoting) (front back : List Char) :
    start.behind (front ++ back) = (start.behind front).behind back :=
  List.foldl_append

theorem bare_append (start : Quoting) (front back : List Char) :
    start.bare (front ++ back) = start.bare front ++ (start.behind front).bare back := by
  induction front generalizing start with
  | nil => rfl
  | cons c front ih =>
    have ih := ih (start.next c)
    rw [List.cons_append, bare, bare]
    split
    · rw [ih, List.cons_append]
      rfl
    · exact ih

end Quoting

/-- A text with its quoted strings emptied.  A quoted string ends at the first quote that no
backslash escapes. -/
def bare (text : String) : String := String.ofList (Quoting.outside.bare text.toList)

/-- Two texts that take a reader from one state to another, and of which the same is left. -/
structure Alike (start stop : Quoting) (a b : String) : Prop where
  bare : start.bare a.toList = start.bare b.toList
  left : start.behind a.toList = stop
  right : start.behind b.toList = stop

namespace Alike

variable {start middle stop : Quoting} {a b c d : String}

theorem refl (h : start.behind a.toList = stop) : Alike start stop a a := ⟨rfl, h, h⟩

theorem append (h : Alike start middle a b) (h' : Alike middle stop c d) :
    Alike start stop (a ++ c) (b ++ d) where
  bare := by
    rw [String.toList_append, String.toList_append, Quoting.bare_append, Quoting.bare_append,
      h.bare, h.left, h.right, h'.bare]
  left := by rw [String.toList_append, Quoting.behind_append, h.left, h'.left]
  right := by rw [String.toList_append, Quoting.behind_append, h.right, h'.right]

/-- What is left of the same text behind two others. -/
theorem bare_append (h : Alike .outside stop a b) (tail : String) :
    Gatework.bare (a ++ tail) = Gatework.bare (b ++ tail) := by
  rw [Gatework.bare, Gatework.bare, String.toList_append, String.toList_append,
    Quoting.bare_append, Quoting.bare_append, h.bare, h.left, h.right]

theorem join_map {α : Type} {f g : α → String} (h : ∀ x, Alike start start (f x) (g x))
    (xs : List α) : Alike start start (String.join (xs.map f)) (String.join (xs.map g)) := by
  induction xs with
  | nil => exact refl rfl
  | cons x xs ih =>
    rw [List.map_cons, List.map_cons, String.join_cons, String.join_cons]
    exact (h x).append ih

end Alike

/-- A text without quotes and backslashes does not change whether a reader is in quotes. -/
theorem Quoting.behind_of_plain {start : Quoting} (hstart : start ≠ .escaped) {text : List Char}
    (h : ∀ c ∈ text, c ≠ '"' ∧ c ≠ '\\') : start.behind text = start := by
  induction text with
  | nil => rfl
  | cons c text ih =>
    obtain ⟨⟨hquote, hbackslash⟩, hrest⟩ := List.forall_mem_cons.1 h
    have hnext : start.next c = start := by
      cases start with
      | escaped => exact absurd rfl hstart
      | _ => simp [next, hquote, hbackslash]
    rw [behind, List.foldl_cons, hnext]
    exact ih hrest

theorem alike_number {start : Quoting} (hstart : start ≠ .escaped) (number : Nat) :
    Alike start start (toString number) (toString number) := by
  refine .refl (Quoting.behind_of_plain hstart fun c hc => ?_)
  rw [Nat.toString_eq_repr, Nat.repr_eq_ofList_toDigits, String.toList_ofList] at hc
  have hdigit := Nat.isDigit_of_mem_toDigits (by decide) (by decide) hc
  constructor
  · rintro rfl
    exact absurd hdigit (by decide)
  · rintro rfl
    exact absurd hdigit (by decide)

/-- A line with a number in it. -/
theorem alike_numbered {start middle stop : Quoting} {front back : String}
    (hfront : start.behind front.toList = middle) (hmiddle : middle ≠ .escaped)
    (hback : middle.behind back.toList = stop) (number : Nat) :
    Alike start stop (front ++ toString number ++ back) (front ++ toString number ++ back) :=
  ((Alike.refl hfront).append (alike_number hmiddle number)).append (.refl hback)

/-! ## Labels -/

/-- A text without the backslashes that escape characters. -/
def unescaped : List Char → List Char
  | [] => []
  | [c] => [c]
  | c :: d :: cs => if c = '\\' then d :: unescaped cs else c :: unescaped (d :: cs)

theorem unescaped_cons {c : Char} (h : c ≠ '\\') (cs : List Char) :
    unescaped (c :: cs) = c :: unescaped cs := by
  cases cs with
  | nil => rfl
  | cons d cs => rw [unescaped, if_neg h]

theorem ne_of_not_isRecordMark {c : Char} (h : ¬ isRecordMark c = true) : c ≠ '"' ∧ c ≠ '\\' := by
  simp only [isRecordMark, Bool.or_eq_true, beq_iff_eq, not_or] at h
  exact h.1.1.1.1.1

theorem unescaped_escapeLabel (text : List Char) : unescaped (escapeLabel text) = text := by
  induction text with
  | nil => rfl
  | cons c text ih =>
    rw [escapeLabel, List.flatMap_cons, ← escapeLabel]
    split
    · rw [List.cons_append, List.singleton_append, unescaped, if_pos rfl, ih]
    · next hc => rw [List.singleton_append, unescaped_cons (ne_of_not_isRecordMark hc).2, ih]

/-- A text that stays in a quoted string, where nothing is left of it. -/
def Enclosed (text : List Char) : Prop :=
  Quoting.inside.bare text = [] ∧ Quoting.inside.behind text = .inside

theorem enclosed_append {front back : List Char} (h : Enclosed front) (h' : Enclosed back) :
    Enclosed (front ++ back) := by
  rw [Enclosed, Quoting.bare_append, Quoting.behind_append, h.1, h.2, h'.1, h'.2]
  exact ⟨rfl, rfl⟩

theorem enclosed_escapeLabel (text : List Char) : Enclosed (escapeLabel text) := by
  induction text with
  | nil => exact ⟨rfl, rfl⟩
  | cons c text ih =>
    rw [escapeLabel, List.flatMap_cons, ← escapeLabel]
    refine enclosed_append ?_ ih
    split
    · exact ⟨rfl, rfl⟩
    · next hc =>
      obtain ⟨hquote, hbackslash⟩ := ne_of_not_isRecordMark hc
      simp [Enclosed, Quoting.bare, Quoting.behind, Quoting.leaves, Quoting.next, hquote,
        hbackslash]

theorem alike_recordLabel (text text' : String) :
    Alike .inside .inside (recordLabel text) (recordLabel text') := by
  have h := enclosed_escapeLabel text.toList
  have h' := enclosed_escapeLabel text'.toList
  rw [← String.toList_ofList (l := escapeLabel text.toList)] at h
  rw [← String.toList_ofList (l := escapeLabel text'.toList)] at h'
  exact ⟨h.1.trans h'.1.symm, h.2, h'.2⟩

/-! ## Netlists without texts -/

def Gate.untitled (gate : Gate) : Gate := { gate with label := "", state := "" }

def Context.untitled (context : Context) : Context := { context with name := "" }

def Box.untitled (box : Box) : Box := { box with gate := box.gate.untitled }

namespace Netlist

/-- A netlist without the labels and states of its gates and the names of its contexts. -/
def untitled (n : Netlist) : Netlist :=
  { n with gates := n.gates.map Gate.untitled, contexts := n.contexts.map Context.untitled }

theorem context?_untitled (n : Netlist) (id : ContextId) :
    n.untitled.context? id = (n.context? id).map Context.untitled :=
  List.find?_map

theorem edgesOf_untitled (n : Netlist) (gate : Gate) :
    Box.edgesOf n.untitled gate.untitled = Box.edgesOf n gate := by
  rw [Box.edgesOf, Box.edgesOf, untitled, List.flatMap_map]
  rfl

theorem clusterOf_untitled (n : Netlist) (gate : Gate) :
    Box.clusterOf n.untitled gate.untitled = Box.clusterOf n gate := by
  rw [Box.clusterOf, Box.clusterOf, context?_untitled, Option.isSome_map]
  rfl

theorem aroundOf_untitled (n : Netlist) (context : Context) :
    Cluster.aroundOf n.untitled context.untitled = Cluster.aroundOf n context := by
  rw [Cluster.aroundOf, Cluster.aroundOf, context?_untitled, Option.isSome_map]
  rfl

theorem outputsOf_untitled (n : Netlist) (gate : GateId) :
    n.untitled.outputsOf gate = n.outputsOf gate := by
  rw [outputsOf, outputsOf, untitled, List.filter_map, List.flatMap_map]
  rfl

theorem fed_untitled (n : Netlist) (gate : GateId) : n.untitled.fed gate = n.fed gate := by
  rw [fed, fed, outputsOf_untitled, untitled, List.filter_map, List.map_map]
  rfl

theorem uses?_untitled (n : Netlist) (gate : GateId) : n.untitled.uses? gate = n.uses? gate := by
  rw [uses?, uses?, fed_untitled]

end Netlist

namespace Diagram

variable (n : Netlist)

theorem boxes_untitled :
    (ofNetlist n.untitled).boxes = (ofNetlist n).boxes.map Box.untitled := by
  show (n.gates.map Gate.untitled).map (Box.ofGate n.untitled) = _
  rw [ofNetlist, List.map_map, List.map_map]
  refine List.map_congr_left fun gate _ => ?_
  rw [Function.comp_apply, Function.comp_apply, Box.ofGate, Box.ofGate,
    Netlist.edgesOf_untitled, Netlist.clusterOf_untitled]
  rfl

theorem clusters_untitled : (ofNetlist n.untitled).clusters = (ofNetlist n).clusters := by
  show (n.contexts.map Context.untitled).map (Cluster.ofContext n.untitled) = _
  rw [ofNetlist, List.map_map]
  refine List.map_congr_left fun context _ => ?_
  rw [Function.comp_apply, Cluster.ofContext, Cluster.ofContext, Netlist.aroundOf_untitled]
  rfl

theorem uses?_untitled (gate : GateId) :
    (ofNetlist n.untitled).uses? gate = (ofNetlist n).uses? gate := by
  rw [uses?_ofNetlist, uses?_ofNetlist, Netlist.uses?_untitled]

theorem boxesIn_untitled (cluster : ContextId) :
    (ofNetlist n.untitled).boxesIn cluster =
      ((ofNetlist n).boxesIn cluster).map Box.untitled := by
  rw [boxesIn, boxesIn, boxes_untitled, List.filter_map]
  rfl

theorem clustersIn_untitled (cluster : ContextId) :
    (ofNetlist n.untitled).clustersIn cluster = (ofNetlist n).clustersIn cluster := by
  rw [clustersIn, clustersIn, clusters_untitled]

theorem boxesByCluster_untitled : (ofNetlist n.untitled).boxesByCluster =
    (ofNetlist n).boxesByCluster.map Box.untitled := by
  rw [boxesByCluster, boxesByCluster, boxes_untitled, List.map_map, List.map_flatMap,
    funext (boxesIn_untitled n)]
  rfl

/-! ## Lines -/

theorem edgeLines_untitled (box : Box) :
    (ofNetlist n.untitled).edgeLines box.untitled = (ofNetlist n).edgeLines box := by
  rw [edgeLines, edgeLines, drawnEdges, drawnEdges, uses?_untitled, funext (uses?_untitled n)]
  rfl

theorem alike_indent (depth : Nat) :
    Alike .outside .outside (indent depth) (indent depth) := by
  refine .refl (Quoting.behind_of_plain (by decide) fun c hc => ?_)
  rw [indent, String.toList_ofList] at hc
  rw [List.eq_of_mem_replicate hc]
  decide

theorem alike_record (box : Box) : Alike .inside .inside box.record box.untitled.record := by
  refine .append (.append (.refl (by rfl)) (alike_recordLabel _ _)) (.join_map (fun input => ?_) _)
  have harg : Alike .inside .inside s!" | <arg{input.2}> " s!" | <arg{input.2}> " :=
    alike_numbered (by rfl) (by decide) (by rfl) input.2
  exact harg.append (alike_recordLabel _ _)

theorem alike_boxLines (depth : Nat) (box : Box) : Alike .outside .outside
    ((ofNetlist n).boxLines depth box) ((ofNetlist n.untitled).boxLines depth box.untitled) := by
  have hid : box.untitled.gate.id = box.gate.id := rfl
  have hnode (number : Nat) : Alike .outside .inside s!"node_{number} [shape=record label=\""
      s!"node_{number} [shape=record label=\"" :=
    alike_numbered (by rfl) (by decide) (by rfl) number
  have hstub (number count : Nat) : Alike .outside .outside
      s!"stub_{number} [label=\"{count} uses\"];\n" s!"stub_{number} [label=\"{count} uses\"];\n" :=
    ((alike_numbered (by rfl) (by decide : Quoting.outside ≠ .escaped) (by rfl) number).append
      (alike_number (by decide) count)).append (.refl (by rfl))
  have hindent := alike_indent depth
  rw [boxLines, boxLines, uses?_untitled, hid]
  have hbox := (hindent.append (hnode box.gate.id.number.toNat)).append (alike_record box)
  refine .append (hbox.append (.refl (by rfl))) ?_
  cases (ofNetlist n).uses? box.gate.id with
  | none => exact .refl rfl
  | some count => exact hindent.append (hstub _ _)

/-- The lines of a cluster, by induction on the bound of the descent. -/
theorem alike_clusterLines (fuel depth : Nat) (cluster : ContextId) : Alike .outside .outside
    ((ofNetlist n).clusterLines fuel depth cluster)
    ((ofNetlist n.untitled).clusterLines fuel depth cluster) := by
  induction fuel generalizing depth cluster with
  | zero => exact .refl rfl
  | succ fuel ih =>
    rw [clusterLines, clusterLines, boxesIn_untitled, clustersIn_untitled, List.map_map]
    refine .append (.join_map (alike_boxLines n depth) _) (.join_map (fun child => ?_) _)
    rw [show (ofNetlist n.untitled).netlist = n.untitled from rfl, Netlist.context?_untitled,
      show (ofNetlist n).netlist = n from rfl]
    cases n.context? child with
    | none => exact .refl rfl
    | some context =>
      have hindent := alike_indent depth
      have hopen : Alike .outside .outside s!"subgraph cluster_{child.number.toNat} \x7b\n"
          s!"subgraph cluster_{child.number.toNat} \x7b\n" :=
        alike_numbered (by rfl) (by decide) (by rfl) _
      have hlabel : Alike .outside .inside "label=\"" "label=\"" := .refl (by rfl)
      have hid : Alike .inside .inside child.text child.text :=
        (Alike.refl (by rfl)).append (alike_number (by decide) _)
      have hclose : Alike .inside .outside s!" {child.text}\";\n" s!" {child.text}\";\n" :=
        ((Alike.refl (by rfl)).append hid).append (.refl (by rfl))
      have hend : Alike .outside .outside "\x7d\n" "\x7d\n" := .refl (by rfl)
      have hfront := ((hindent.append hopen).append (alike_indent (depth + 1))).append hlabel
      have hcaption := (hfront.append (alike_recordLabel context.name "")).append hclose
      exact ((hcaption.append (ih (depth + 1) child)).append hindent).append hend

end Diagram

/-! ## Diagrams -/

namespace Netlist

/-- The lines with which every diagram starts. -/
def diagramHead : String := "digraph \x7b\n  rankdir=LR;\n  node [fontname=\"monospace\"];\n"

/-- What is not quoted in a diagram does not depend on the labels and states of the gates and the
names of the contexts. -/
theorem bare_diagram_untitled (n : Netlist) : bare n.diagram = bare n.untitled.diagram := by
  have htext (d : Diagram) : d.text = diagramHead ++
      d.clusterLines (d.netlist.contexts.length + 1) 1 .root ++
      (String.join (d.boxesByCluster.map d.edgeLines) ++ "\x7d\n") := String.append_assoc ..
  have hhead : Alike .outside .outside diagramHead diagramHead := .refl (by rfl)
  have hclusters := Diagram.alike_clusterLines n
    ((Diagram.ofNetlist n).netlist.contexts.length + 1) 1 .root
  have hlength : (Diagram.ofNetlist n.untitled).netlist.contexts.length =
      (Diagram.ofNetlist n).netlist.contexts.length := List.length_map ..
  have hedges : (Diagram.ofNetlist n.untitled).boxesByCluster.map
      (Diagram.ofNetlist n.untitled).edgeLines =
        (Diagram.ofNetlist n).boxesByCluster.map (Diagram.ofNetlist n).edgeLines := by
    rw [Diagram.boxesByCluster_untitled, List.map_map, ← funext (Diagram.edgeLines_untitled n)]
    rfl
  rw [diagram, diagram, htext, htext, hedges, hlength, (hhead.append hclusters).bare_append]

/-- Texts cannot break out of a diagram.  Diagrams of netlists that differ in the labels and
states of gates and the names of contexts only are the same where nothing is quoted, and a text
can be had back from its form in a label. -/
theorem bare_diagram_eq : (∀ n n' : Netlist, n.untitled = n'.untitled →
      bare n.diagram = bare n'.diagram) ∧
    ∀ text : String, unescaped (recordLabel text).toList = text.toList := by
  refine ⟨fun n n' h => ?_, fun text => ?_⟩
  · rw [bare_diagram_untitled, h, ← bare_diagram_untitled]
  · rw [recordLabel, String.toList_ofList, unescaped_escapeLabel]

/-- A gate and a context whose texts try to close their quotes. -/
def titled (label state name : String) : Netlist :=
  { (ofParts [⟨⟨0⟩, .builtin, label, [], [⟨1⟩], ⟨1⟩, state⟩] [.fresh ⟨1⟩ none]) with
    contexts := [⟨⟨1⟩, name, 1, .root, []⟩] }

theorem bare_diagram_eq_titled :
    let n := titled "\"]; a -> b" "\\" "\x7d\\\""
    let n' := titled "led" "" "main"
    n.diagram ≠ n'.diagram ∧ bare n.diagram = bare n'.diagram ∧
      unescaped (recordLabel "\x7d\\\"").toList = "\x7d\\\"".toList :=
  ⟨by decide +kernel, bare_diagram_eq.1 _ _ rfl, bare_diagram_eq.2 _⟩

end Netlist

end Gatework
