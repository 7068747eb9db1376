import Gatework.Proofs.Json.Standard
import Gatework.Summary

/-!
# Summaries keep the netlist

The summary of a netlist is read as the same netlist: its gates, its wires in their
order, its contexts with their children, and its outputs.  That holds for every library
for JSON that keeps the laws of its kinds, of what is built, and of texts.

There are four groups.

* References, and lists of them.
* The parts: gates, wires, contexts, and the arena of the wires of an arena.
* `Summary.toNetlist_ofNetlist` for JSON values.
* The text of a summary is read back as its value, so `ofSummaryWith_toSummaryWith`
  follows for bytes, and `ofSummary_toSummary` for the standard library.
-/

namespace Gatework

variable {V E : Type} {lib : Json.Library V E}

/-! ## References -/

namespace Summary

theorem required_of_member {subject : Subject} {name : String} {value member : V}
    (h : lib.member name value = member) (hnull : lib.isNull member = false) :
    required lib subject name value = .ok member := by
  rw [required, h, hnull]
  rfl

theorem requiredNumber_of_member (hkind : lib.KindLaws) {subject : Subject} {name : String}
    {value : V} {n : UInt32} (h : lib.word32? (lib.member name value) = some n) :
    requiredNumber lib subject name value = .ok n := by
  simp [requiredNumber, required_of_member rfl (hkind.isNull_of_word32? h), h, bind, Except.bind,
    pure, Except.pure]

theorem reference_of_word32? (hkind : lib.KindLaws) {subject : Subject} {value : V} {n : UInt32}
    (h : lib.word32? value = some n) : reference lib subject value = .ok n := by
  simp [reference, hkind.isObject_of_word32? h, h]

/-- Reading what each of some things is written as gives these things. -/
theorem mapM_map {α β : Type} {write : α → β} {read : β → Read α} (all : List α)
    (h : ∀ a ∈ all, read (write a) = .ok a) : (all.map write).mapM read = .ok all := by
  induction all with
  | nil => rfl
  | cons a all ih =>
    have hrest := ih fun b hb => h b (List.mem_cons_of_mem _ hb)
    simp only [List.map_cons, List.mapM_cons, h a List.mem_cons_self, hrest, bind, Except.bind,
      pure, Except.pure]

theorem references_of_isArray (hkind : lib.KindLaws) {subject : Subject} {value : V}
    (h : lib.isArray value = true) :
    references lib subject value = (lib.items value).mapM (reference lib subject) := by
  rw [references, hkind.isNull_of_isArray h, h]
  rfl

theorem requiredItems_of_isArray (hkind : lib.KindLaws) {name : String} {value : V}
    (h : lib.isArray (lib.member name value) = true) :
    requiredItems lib name value = .ok (lib.items (lib.member name value)) := by
  simp [requiredItems, required_of_member rfl (hkind.isNull_of_isArray h), h, bind, Except.bind,
    pure, Except.pure]

section Laws

variable (hkind : lib.KindLaws) (hbuild : lib.BuildLaws)
include hkind hbuild

theorem references_array {α : Type} (subject : Subject) (number : α → UInt32) (all : List α) :
    references lib subject (lib.array (all.map fun a => lib.ofWord32 (number a))) =
      .ok (all.map number) := by
  have hmap : all.map (fun a => lib.ofWord32 (number a)) = (all.map number).map lib.ofWord32 := by
    simp
  rw [references_of_isArray hkind (hbuild.isArray_array _), hbuild.items_array, hmap]
  exact mapM_map _ fun n _ => reference_of_word32? hkind (hbuild.word32?_ofWord32 n)

theorem reference?_ofGateId? (subject : Subject) (id : Option GateId) :
    reference? lib subject (ofGateId? lib id) = .ok (id.map GateId.number) := by
  cases id with
  | none => exact if_pos hkind.isNull_null
  | some id =>
    have hnumber : lib.word32? (ofGateId? lib (some id)) = some id.number :=
      hbuild.word32?_ofWord32 id.number
    rw [reference?, hkind.isNull_of_word32? hnumber, reference_of_word32? hkind hnumber]
    rfl

omit hkind in
theorem textOr_ofText {name text : String} {value : V}
    (h : lib.member name value = lib.ofText text) : textOr lib name value = text := by
  rw [textOr, h, hbuild.text?_ofText]
  rfl

omit hkind in
theorem numberOr_ofWord32 {name : String} {value : V} {n : UInt32}
    (h : lib.member name value = lib.ofWord32 n) : numberOr lib name value = n := by
  rw [numberOr, h, hbuild.word32?_ofWord32]
  rfl

theorem requiredNumber_ofWord32 {subject : Subject} {name : String} {value : V} {n : UInt32}
    (h : lib.member name value = lib.ofWord32 n) :
    requiredNumber lib subject name value = .ok n := by
  have hnumber := hbuild.word32?_ofWord32 n
  rw [← h] at hnumber
  exact requiredNumber_of_member hkind hnumber

theorem requiredItems_array {name : String} {value : V} {items : List V}
    (h : lib.member name value = lib.array items) :
    requiredItems lib name value = .ok items := by
  have harray : lib.isArray (lib.member name value) = true := by
    rw [h, hbuild.isArray_array]
  rw [requiredItems_of_isArray hkind harray, h, hbuild.items_array]

/-! ## Parts -/

omit hkind hbuild in
theorem ofTag?_tag (kind : GateKind) : GateKind.ofTag? kind.tag = some kind := by
  cases kind <;> decide

theorem toGate_ofGate (gate : Gate) : toGate lib (ofGate lib gate) = .ok gate := by
  have hnames : ["Id", "Type", "Label", "Inputs", "Outputs", "CallingContext", "State"].Nodup := by
    decide
  have hid : requiredNumber lib (.gate none) "Id" (ofGate lib gate) = .ok gate.id.number :=
    requiredNumber_ofWord32 hkind hbuild (hbuild.member_object hnames rfl)
  have hkinds (subject : Subject) : toGateKind lib subject (ofGate lib gate) = .ok gate.kind := by
    have hmember : lib.member "Type" (ofGate lib gate) = lib.ofText gate.kind.tag :=
      hbuild.member_object hnames rfl
    have htext := hbuild.text?_ofText gate.kind.tag
    simp [toGateKind, required_of_member hmember (hkind.isNull_of_text? htext), htext, ofTag?_tag,
      bind, Except.bind, pure, Except.pure]
  have hinputs : lib.member "Inputs" (ofGate lib gate) = ofWires lib gate.inputs :=
    hbuild.member_object hnames rfl
  have houtputs : lib.member "Outputs" (ofGate lib gate) = ofWires lib gate.outputs :=
    hbuild.member_object hnames rfl
  have hcontext : numberOr lib "CallingContext" (ofGate lib gate) = gate.context.number :=
    numberOr_ofWord32 hbuild (hbuild.member_object hnames rfl)
  have hlabel : textOr lib "Label" (ofGate lib gate) = gate.label :=
    textOr_ofText hbuild (hbuild.member_object hnames rfl)
  have hstate : textOr lib "State" (ofGate lib gate) = gate.state :=
    textOr_ofText hbuild (hbuild.member_object hnames rfl)
  simp [toGate, hid, hkinds, hinputs, houtputs, ofWires, references_array hkind hbuild, hcontext,
    hlabel, hstate, bind, Except.bind, pure, Except.pure, Function.comp_def]

theorem toWire_ofWire (wire : Wire) : toWire lib (ofWire lib wire) = .ok wire := by
  have hnames : ["Id", "Desc", "Start", "End", "Powered"].Nodup := by decide
  have hid : requiredNumber lib (.wire none) "Id" (ofWire lib wire) = .ok wire.id.number :=
    requiredNumber_ofWord32 hkind hbuild (hbuild.member_object hnames rfl)
  have hstart : lib.member "Start" (ofWire lib wire) = ofGateId? lib wire.start :=
    hbuild.member_object hnames rfl
  have hstop : lib.member "End" (ofWire lib wire) = ofGateId? lib wire.stop :=
    hbuild.member_object hnames rfl
  have hdesc : lib.text? (lib.member "Desc" (ofWire lib wire)) = wire.desc := by
    have hmember : lib.member "Desc" (ofWire lib wire) = lib.ofOption lib.ofText wire.desc :=
      hbuild.member_object hnames rfl
    rw [hmember]
    cases wire.desc with
    | none => exact hkind.text?_of_isNull hkind.isNull_null
    | some text => exact hbuild.text?_ofText text
  have hpowered : lib.flag? (lib.member "Powered" (ofWire lib wire)) = some wire.powered := by
    have hmember : lib.member "Powered" (ofWire lib wire) = lib.ofFlag wire.powered :=
      hbuild.member_object hnames rfl
    rw [hmember, hbuild.flag?_ofFlag]
  simp [toWire, hid, hstart, hstop, reference?_ofGateId? hkind hbuild, hdesc, hpowered, bind,
    Except.bind, pure, Except.pure, Function.comp_def]

theorem toContext_ofContext {context : Context} (h : context.depth < UInt64.size) :
    toContext lib (ofContext lib context) = .ok context := by
  have hnames : ["Id", "Name", "Depth", "Parent", "Children"].Nodup := by decide
  have hid : requiredNumber lib (.context none) "Id" (ofContext lib context) =
      .ok context.id.number :=
    requiredNumber_ofWord32 hkind hbuild (hbuild.member_object hnames rfl)
  have hchildren : lib.member "Children" (ofContext lib context) =
      lib.array (context.children.map fun id => lib.ofWord32 id.number) :=
    hbuild.member_object hnames rfl
  have hname : textOr lib "Name" (ofContext lib context) = context.name :=
    textOr_ofText hbuild (hbuild.member_object hnames rfl)
  have hdepth : lib.word64? (lib.member "Depth" (ofContext lib context)) = some context.depth := by
    have hmember : lib.member "Depth" (ofContext lib context) = lib.ofWord64 context.depth :=
      hbuild.member_object hnames rfl
    rw [hmember, hbuild.word64?_ofWord64 h]
  have hparent : numberOr lib "Parent" (ofContext lib context) = context.parent.number :=
    numberOr_ofWord32 hbuild (hbuild.member_object hnames rfl)
  simp [toContext, hid, hchildren, references_array hkind hbuild, hname, hdepth, hparent, bind,
    Except.bind, pure, Except.pure, Function.comp_def]

end Laws

end Summary

/-- The wires of an arena make up the same arena. -/
theorem Arena.ofList_wires (a : Arena) : ofList a.wires = a := by
  obtain ⟨latest, nodup⟩ := a
  induction latest with
  | nil => rfl
  | cons wire rest ih =>
    have hnodup : wire.id ∉ rest.map Wire.id ∧ (rest.map Wire.id).Nodup := List.nodup_cons.1 nodup
    have hlast : ofList (wires ⟨wire :: rest, nodup⟩) =
        (ofList (wires ⟨rest, hnodup.2⟩)).insert wire := by
      simp [ofList, wires]
    rw [hlast, ih hnodup.2, insert, dif_pos (find?_eq_none.2 hnodup.1)]

/-! ## The whole -/

namespace Summary

/-- The summary of a netlist is read as the netlist, if the depths of its contexts are
numbers of 64 bits. -/
theorem toNetlist_ofNetlist (hkind : lib.KindLaws) (hbuild : lib.BuildLaws) {n : Netlist}
    (h : ∀ context ∈ n.contexts, context.depth < UInt64.size) :
    toNetlist lib (ofNetlist lib n) = .ok n := by
  have hnames : ["Gates", "Wires", "Contexts", "Outputs"].Nodup := by decide
  have hgates : requiredItems lib "Gates" (ofNetlist lib n) = .ok (n.gates.map (ofGate lib)) :=
    requiredItems_array hkind hbuild (hbuild.member_object hnames rfl)
  have hwires : requiredItems lib "Wires" (ofNetlist lib n) =
      .ok (n.wires.wires.map (ofWire lib)) :=
    requiredItems_array hkind hbuild (hbuild.member_object hnames rfl)
  have hcontexts : toContexts lib (ofNetlist lib n) =
      (n.contexts.map (ofContext lib)).mapM (toContext lib) := by
    have hmember : lib.member "Contexts" (ofNetlist lib n) =
        lib.array (n.contexts.map (ofContext lib)) := hbuild.member_object hnames rfl
    rw [toContexts, requiredItems_array hkind hbuild hmember, hmember,
      hkind.isNull_of_isArray (hbuild.isArray_array _)]
    rfl
  have houtputs : lib.member "Outputs" (ofNetlist lib n) = ofWires lib n.outputs :=
    hbuild.member_object hnames rfl
  have hobject : lib.isObject (ofNetlist lib n) = true := hbuild.isObject_object _
  simp [toNetlist, hobject, hgates, hwires, hcontexts, houtputs,
    mapM_map n.gates fun gate _ => toGate_ofGate hkind hbuild gate,
    mapM_map n.wires.wires fun wire _ => toWire_ofWire hkind hbuild wire,
    mapM_map n.contexts fun context hcontext =>
      toContext_ofContext hkind hbuild (h context hcontext),
    ofWires, references_array hkind hbuild, Netlist.ofParts, Arena.ofList_wires, bind, Except.bind,
    pure, Except.pure, Function.comp_def]

/-! ## Texts -/

variable {levels : Nat}

theorem written_array_map {α : Type} {f : α → V} {all : List α}
    (h : ∀ a ∈ all, lib.Written levels (f a)) :
    lib.Written (levels + 1) (lib.array (all.map f)) := by
  refine .array fun item hitem => ?_
  obtain ⟨a, ha, rfl⟩ := List.mem_map.1 hitem
  exact h a ha

theorem written_numbers {α : Type} {number : α → UInt32} {all : List α} :
    lib.Written (levels + 1) (lib.array (all.map fun a => lib.ofWord32 (number a))) :=
  written_array_map fun _ _ => .word32 _

theorem written_ofOption {α : Type} {f : α → V} (h : ∀ a, lib.Written levels (f a))
    (a : Option α) : lib.Written levels (lib.ofOption f a) := by
  cases a with
  | none => exact .null
  | some a => exact h a

theorem written_ofGate (gate : Gate) : lib.Written (levels + 2) (ofGate lib gate) := by
  refine .object ?_
  simp only [List.forall_mem_cons]
  exact ⟨.word32 _, .text _, .text _, written_numbers, written_numbers, .word32 _, .text _,
    List.forall_mem_nil _⟩

theorem written_ofWire (wire : Wire) : lib.Written (levels + 1) (ofWire lib wire) := by
  refine .object ?_
  simp only [List.forall_mem_cons]
  exact ⟨.word32 _, written_ofOption (fun _ => .text _) _, written_ofOption (fun _ => .word32 _) _,
    written_ofOption (fun _ => .word32 _) _, .flag _, List.forall_mem_nil _⟩

theorem written_ofContext {context : Context} (h : context.depth < UInt64.size) :
    lib.Written (levels + 2) (ofContext lib context) := by
  refine .object ?_
  simp only [List.forall_mem_cons]
  exact ⟨.word32 _, .text _, .word64 h, .word32 _, written_numbers, List.forall_mem_nil _⟩

theorem written_ofNetlist {n : Netlist}
    (h : ∀ context ∈ n.contexts, context.depth < UInt64.size) :
    lib.Written (levels + 4) (ofNetlist lib n) := by
  refine .object ?_
  simp only [List.forall_mem_cons]
  exact ⟨written_array_map fun gate _ => written_ofGate gate,
    written_array_map fun wire _ => written_ofWire wire,
    written_array_map fun context hcontext => written_ofContext (h context hcontext),
    written_numbers, List.forall_mem_nil _⟩

end Summary

namespace Netlist

theorem ofSummaryWith_toUTF8 (text : String) :
    ofSummaryWith lib text.toUTF8 = ofSummaryTextWith lib text := by
  have hbytes : String.fromUTF8? text.toUTF8 = some text := dif_pos text.isValidUTF8
  rw [ofSummaryWith, hbytes]

theorem ofSummaryTextWith_toSummaryWith (hkind : lib.KindLaws) (hbuild : lib.BuildLaws)
    (htext : lib.TextLaws) {n : Netlist}
    (h : ∀ context ∈ n.contexts, context.depth < UInt64.size) :
    ofSummaryTextWith lib (n.toSummaryWith lib) = .ok n := by
  have hparse : lib.parse (n.toSummaryWith lib) = .ok (Summary.ofNetlist lib n) :=
    htext.parse_write (Summary.written_ofNetlist h)
  simp only [ofSummaryTextWith, hparse, Except.mapError, bind, Except.bind]
  rw [Summary.toNetlist_ofNetlist hkind hbuild h]

/-- With the standard library the bytes of a summary are read as the netlist. -/
theorem ofSummary_toSummary {n : Netlist}
    (h : ∀ context ∈ n.contexts, context.depth < UInt64.size) :
    ofSummary n.toSummary.toUTF8 = .ok n :=
  (ofSummaryWith_toUTF8 _).trans (ofSummaryTextWith_toSummaryWith Json.kindLaws_standard
    Json.buildLaws_standard Json.textLaws_standard h)

/-- Whatever a netlist is like, the bytes of its summary are read as the same netlist,
if the depths of its contexts are numbers of 64 bits. -/
theorem ofSummaryWith_toSummaryWith (hkind : lib.KindLaws) (hbuild : lib.BuildLaws)
    (htext : lib.TextLaws) {n : Netlist}
    (h : ∀ context ∈ n.contexts, context.depth < UInt64.size) :
    ofSummaryWith lib (n.toSummaryWith lib).toUTF8 = .ok n := by
  rw [ofSummaryWith_toUTF8]
  exact ofSummaryTextWith_toSummaryWith hkind hbuild htext h

/-- A netlist with two gates of one number, with wires that are not there, a context
that is its own parent, and texts that have to be escaped. -/
def dangling : Netlist where
  wires := .ofList [⟨⟨4294967295⟩, some "\"in\"\t\\\x01", some ⟨7⟩, none, true⟩,
    ⟨⟨0⟩, none, none, some ⟨0⟩, false⟩, ⟨⟨3⟩, some "", none, none, false⟩]
  gates := [⟨⟨7⟩, .conj, "", [⟨9⟩, ⟨9⟩], [⟨4294967295⟩], ⟨5⟩, ""⟩,
    ⟨⟨7⟩, .builtin, "led", [], [], .root, "on\n"⟩]
  contexts := [⟨⟨2⟩, "hold", 18446744073709551615, ⟨2⟩, [⟨2⟩, ⟨8⟩]⟩, ⟨⟨2⟩, "", 0, .root, []⟩]
  outputs := [⟨3⟩, ⟨12⟩, ⟨3⟩]

theorem ofSummaryWith_toSummaryWith_dangling :
    (Json.standard.KindLaws ∧ Json.standard.BuildLaws ∧ Json.standard.TextLaws) ∧
      (∀ context ∈ dangling.contexts, context.depth < UInt64.size) ∧
      ofSummary dangling.toSummary.toUTF8 = .ok dangling := by
  have hdepth : ∀ context ∈ dangling.contexts, context.depth < UInt64.size := by decide
  exact ⟨⟨Json.kindLaws_standard, Json.buildLaws_standard, Json.textLaws_standard⟩, hdepth,
    ofSummaryWith_toSummaryWith Json.kindLaws_standard Json.buildLaws_standard
      Json.textLaws_standard hdepth⟩

end Netlist

end Gatework
