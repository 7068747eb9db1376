import Gatework.Proofs.Json.Standard
import Gatework.Summary
import Mathlib.Data.List.Forall2

/-!
# The schema of summaries

A JSON value is read as a netlist exactly if it keeps the schema of summaries, and otherwise
its first fault is reported.  What the schema does not mention is tolerated.  That holds for every
library for JSON whose values are of one kind each.

There are five groups.

* The schema: `IsReference`, `IsGate`, `IsWire`, `IsContext`, and `IsSummary` for the whole.
* What a summary shows: the gate, wire, context or netlist that a value stands for, with what
  is taken where a member is left out or of another type.
* All faults of a value, in the order of its parts.
* `Finds` says that a reader reports the first of some faults, and succeeds if there is none.
  Readers that are put together find the faults of their parts, one after the other.
* A value without faults keeps the schema.  `toNetlist_accepts` is the result.
-/

namespace Gatework.Summary

variable {V E : Type} (lib : Json.Library V E)

/-! ## The schema -/

/-- Whether a value is an identifier: an unsigned number of 32 bits. -/
def IsId (value : V) : Prop := ∃ number, lib.word32? value = some number

/-- Whether a value is an identifier, or an object whose `Id` is one. -/
def IsReference (value : V) : Prop :=
  IsId lib value ∨ lib.isObject value = true ∧ IsId lib (lib.member "Id" value)

/-- Whether a value is an array whose items have a property. -/
def IsArrayOf (p : V → Prop) (value : V) : Prop :=
  lib.isArray value = true ∧ ∀ item ∈ lib.items value, p item

/-- Whether a value is null, as it is where a member is absent, or has a property. -/
def NullOr (p : V → Prop) (value : V) : Prop := lib.isNull value = true ∨ p value

/-- Whether a value is a gate. -/
structure IsGate (value : V) : Prop where
  id : IsId lib (lib.member "Id" value)
  kind : ∃ kind : GateKind, lib.text? (lib.member "Type" value) = some kind.tag
  inputs : NullOr lib (IsArrayOf lib (IsReference lib)) (lib.member "Inputs" value)
  outputs : NullOr lib (IsArrayOf lib (IsReference lib)) (lib.member "Outputs" value)

/-- Whether a value is a wire. -/
structure IsWire (value : V) : Prop where
  id : IsId lib (lib.member "Id" value)
  start : NullOr lib (IsReference lib) (lib.member "Start" value)
  stop : NullOr lib (IsReference lib) (lib.member "End" value)

/-- Whether a value is a context. -/
structure IsContext (value : V) : Prop where
  id : IsId lib (lib.member "Id" value)
  children : NullOr lib (IsArrayOf lib (IsReference lib)) (lib.member "Children" value)

/-- Whether a value is a summary. -/
structure IsSummary (value : V) : Prop where
  isObject : lib.isObject value = true
  gates : IsArrayOf lib (IsGate lib) (lib.member "Gates" value)
  wires : IsArrayOf lib (IsWire lib) (lib.member "Wires" value)
  contexts : NullOr lib (IsArrayOf lib (IsContext lib)) (lib.member "Contexts" value)
  outputs : NullOr lib (IsArrayOf lib (IsReference lib)) (lib.member "Outputs" value)

/-! ## What a summary shows -/

/-- The number that a reference names. -/
def named? (value : V) : Option UInt32 :=
  if lib.isObject value then lib.word32? (lib.member "Id" value) else lib.word32? value

/-- The items of an array show some things, one each. -/
def ShowsItems {α : Type} (r : V → α → Prop) (value : V) (all : List α) : Prop :=
  lib.isArray value = true ∧ List.Forall₂ r (lib.items value) all

/-- The same for an array that may be left out.  Null shows nothing. -/
def ShowsItems? {α : Type} (r : V → α → Prop) (value : V) (all : List α) : Prop :=
  lib.isNull value = true ∧ all = [] ∨ ShowsItems lib r value all

/-- The references of a list name some numbers. -/
def Names : V → List UInt32 → Prop :=
  ShowsItems? lib fun item number => named? lib item = some number

/-- A value names a number, or it is null. -/
def Names? (value : V) : Option UInt32 → Prop
  | none => lib.isNull value = true
  | some number => lib.isNull value = false ∧ named? lib value = some number

/-- A value shows a gate.  A label or state that is no text is empty, and a context that is no
identifier is the description itself. -/
structure ShowsGate (value : V) (gate : Gate) : Prop where
  id : lib.word32? (lib.member "Id" value) = some gate.id.number
  kind : lib.text? (lib.member "Type" value) = some gate.kind.tag
  label : gate.label = (lib.text? (lib.member "Label" value)).getD ""
  inputs : Names lib (lib.member "Inputs" value) (gate.inputs.map WireId.number)
  outputs : Names lib (lib.member "Outputs" value) (gate.outputs.map WireId.number)
  context : gate.context.number = (lib.word32? (lib.member "CallingContext" value)).getD 0
  state : gate.state = (lib.text? (lib.member "State" value)).getD ""

/-- A value shows a wire.  A description that is no text is none, and what is no flag is
false. -/
structure ShowsWire (value : V) (wire : Wire) : Prop where
  id : lib.word32? (lib.member "Id" value) = some wire.id.number
  desc : wire.desc = lib.text? (lib.member "Desc" value)
  start : Names? lib (lib.member "Start" value) (wire.start.map GateId.number)
  stop : Names? lib (lib.member "End" value) (wire.stop.map GateId.number)
  powered : wire.powered = (lib.flag? (lib.member "Powered" value)).getD false

/-- A value shows a context.  A name that is no text is empty, and a depth or parent that is
no number is zero. -/
structure ShowsContext (value : V) (context : Context) : Prop where
  id : lib.word32? (lib.member "Id" value) = some context.id.number
  name : context.name = (lib.text? (lib.member "Name" value)).getD ""
  depth : context.depth = (lib.word64? (lib.member "Depth" value)).getD 0
  parent : context.parent.number = (lib.word32? (lib.member "Parent" value)).getD 0
  children : Names lib (lib.member "Children" value) (context.children.map ContextId.number)

/-- A value shows a netlist.  Of several wires of one identifier the last is meant. -/
structure Shows (value : V) (n : Netlist) : Prop where
  gates : ShowsItems lib (ShowsGate lib) (lib.member "Gates" value) n.gates
  wires : ∃ wires, ShowsItems lib (ShowsWire lib) (lib.member "Wires" value) wires ∧
    n.wires = .ofList wires
  contexts : ShowsItems? lib (ShowsContext lib) (lib.member "Contexts" value) n.contexts
  outputs : Names lib (lib.member "Outputs" value) (n.outputs.map WireId.number)

/-! ## Faults -/

/-- The fault of a member that has to be an identifier. -/
def idFaults (subject : Subject) (name : String) (value : V) : List SchemaError :=
  if lib.isNull (lib.member name value) then [.memberMissing subject name]
  else if (lib.word32? (lib.member name value)).isSome then []
  else [.notAnId subject name]

/-- The fault of a reference. -/
def referenceFaults (subject : Subject) (value : V) : List SchemaError :=
  if lib.isObject value then idFaults lib subject "Id" value
  else if (lib.word32? value).isSome then []
  else [.malformedReference subject]

/-- The faults of a list of references. -/
def referencesFaults (subject : Subject) (value : V) : List SchemaError :=
  if lib.isNull value then []
  else if lib.isArray value then (lib.items value).flatMap (referenceFaults lib subject)
  else [.expectedArray subject]

/-- The fault of a reference that may be left out. -/
def endFaults (subject : Subject) (value : V) : List SchemaError :=
  if lib.isNull value then [] else referenceFaults lib subject value

/-- The fault of the type of a gate. -/
def kindFaults (subject : Subject) (value : V) : List SchemaError :=
  if lib.isNull (lib.member "Type" value) then [.memberMissing subject "Type"]
  else
    match lib.text? (lib.member "Type" value) with
    | none => [.nonTextType subject]
    | some tag =>
      if (GateKind.all.map GateKind.tag).contains tag then [] else [.unknownType subject tag]

/-- The faults of a gate.  Only the first one names a gate without its identifier. -/
def gateFaults (value : V) : List SchemaError :=
  let subject := .gate ((lib.word32? (lib.member "Id" value)).map GateId.mk)
  idFaults lib (.gate none) "Id" value ++ (kindFaults lib subject value ++
    (referencesFaults lib subject (lib.member "Inputs" value) ++
      referencesFaults lib subject (lib.member "Outputs" value)))

/-- The faults of a wire. -/
def wireFaults (value : V) : List SchemaError :=
  let subject := .wire ((lib.word32? (lib.member "Id" value)).map WireId.mk)
  idFaults lib (.wire none) "Id" value ++
    (endFaults lib subject (lib.member "Start" value) ++
      endFaults lib subject (lib.member "End" value))

/-- The faults of a context. -/
def contextFaults (value : V) : List SchemaError :=
  let subject := .context ((lib.word32? (lib.member "Id" value)).map ContextId.mk)
  idFaults lib (.context none) "Id" value ++
    referencesFaults lib subject (lib.member "Children" value)

/-- The faults of a member that has to be an array, and of its items. -/
def arrayFaults (name : String) (faults : V → List SchemaError) (value : V) : List SchemaError :=
  if lib.isNull (lib.member name value) then [.memberMissing .summary name]
  else if lib.isArray (lib.member name value) then
    (lib.items (lib.member name value)).flatMap faults
  else [.notAnArray name]

/-- The faults of the contexts, which may be left out. -/
def contextsFaults (value : V) : List SchemaError :=
  if lib.isNull (lib.member "Contexts" value) then []
  else arrayFaults lib "Contexts" (contextFaults lib) value

/-- All faults of a value: those of its gates, of its wires, of its contexts, and of its
outputs. -/
def faults (value : V) : List SchemaError :=
  if lib.isObject value then
    arrayFaults lib "Gates" (gateFaults lib) value ++
      (arrayFaults lib "Wires" (wireFaults lib) value ++
        (contextsFaults lib value ++
          referencesFaults lib .outputs (lib.member "Outputs" value)))
  else
    [.notAnObject]

/-! ## Readers -/

section Finds

variable {α β : Type} {faults more : List SchemaError} {p : α → Prop} {q : β → Prop}

/-- A reader reports the first of some faults.  Without faults it gives what has a
property. -/
def Finds (faults : List SchemaError) (reader : Read α) (p : α → Prop) : Prop :=
  match faults with
  | [] => ∃ a, reader = .ok a ∧ p a
  | fault :: _ => reader = .error fault

theorem finds_pure {a : α} (h : p a) : Finds [] (pure a) p := ⟨a, rfl, h⟩

theorem Finds.bind {reader : Read α} {next : α → Read β} (h : Finds faults reader p)
    (hnext : ∀ a, p a → Finds more (next a) q) : Finds (faults ++ more) (reader >>= next) q := by
  cases faults with
  | nil =>
    obtain ⟨a, rfl, ha⟩ := h
    exact hnext a ha
  | cons fault faults =>
    have herror : reader = .error fault := h
    rw [herror]
    exact rfl

theorem Finds.mono {q : α → Prop} {reader : Read α} (h : Finds faults reader p)
    (hq : ∀ a, p a → q a) : Finds faults reader q := by
  cases faults with
  | nil =>
    obtain ⟨a, rfl, ha⟩ := h
    exact ⟨a, rfl, hq a ha⟩
  | cons fault faults => exact h

/-- What a reader gives may be worked on. -/
theorem Finds.map {reader : Read α} {f : α → β} (h : Finds faults reader p)
    (hf : ∀ a, p a → q (f a)) : Finds faults (do return f (← reader)) q := by
  have hmap : Finds (faults ++ []) (reader >>= fun a => pure (f a)) q :=
    h.bind fun a ha => finds_pure (hf a ha)
  rwa [List.append_nil] at hmap

/-- The faults of items are found one item after the other. -/
theorem finds_mapM {r : V → α → Prop} {faults : V → List SchemaError}
    {reader : V → Read α} (h : ∀ item, Finds (faults item) (reader item) (r item))
    (items : List V) :
    Finds (items.flatMap faults) (items.mapM reader) fun all => List.Forall₂ r items all := by
  induction items with
  | nil => exact finds_pure .nil
  | cons item items ih =>
    rw [List.mapM_cons, List.flatMap_cons]
    exact (h item).bind fun a ha => ih.map fun all hall => .cons ha hall

/-- A reader that finds faults fails with the first of them. -/
theorem Finds.eq_error_iff {reader : Read α} (h : Finds faults reader p) (fault : SchemaError) :
    reader = .error fault ↔ faults.head? = some fault := by
  cases faults with
  | nil =>
    obtain ⟨a, rfl, -⟩ := h
    exact ⟨nofun, nofun⟩
  | cons first faults =>
    have herror : reader = .error first := h
    rw [herror, List.head?_cons, Except.error.injEq, Option.some.injEq]

theorem Finds.exists_ok_iff {reader : Read α} (h : Finds faults reader p) :
    (∃ a, reader = .ok a) ↔ faults = [] := by
  cases faults with
  | nil =>
    obtain ⟨a, rfl, -⟩ := h
    exact ⟨fun _ => rfl, fun _ => ⟨a, rfl⟩⟩
  | cons first faults =>
    have herror : reader = .error first := h
    rw [herror]
    exact ⟨nofun, nofun⟩

theorem Finds.of_ok {reader : Read α} (h : Finds faults reader p) {a : α}
    (ha : reader = .ok a) : p a := by
  cases faults with
  | nil =>
    obtain ⟨b, hb, hp⟩ := h
    cases hb.symm.trans ha
    exact hp
  | cons first faults => cases (show reader = .error first from h).symm.trans ha

end Finds

/-! ## Parts -/

variable {lib}

theorem required_bind {α : Type} (subject : Subject) (name : String) (value : V)
    (next : V → Read α) : required lib subject name value >>= next =
      if lib.isNull (lib.member name value) then .error (.memberMissing subject name)
      else next (lib.member name value) := by
  simp only [required]
  split <;> rfl

theorem finds_requiredNumber (subject : Subject) (name : String) (value : V) :
    Finds (idFaults lib subject name value) (requiredNumber lib subject name value) fun number =>
      lib.word32? (lib.member name value) = some number := by
  rw [requiredNumber, required_bind, idFaults]
  split
  · exact rfl
  · cases hword : lib.word32? (lib.member name value) with
    | none => exact rfl
    | some number => exact finds_pure rfl

theorem finds_reference (subject : Subject) (value : V) :
    Finds (referenceFaults lib subject value) (reference lib subject value) fun number =>
      named? lib value = some number := by
  unfold referenceFaults reference named?
  split
  · exact finds_requiredNumber subject "Id" value
  · cases hword : lib.word32? value with
    | none => exact rfl
    | some number => exact finds_pure rfl

theorem finds_references (subject : Subject) (value : V) :
    Finds (referencesFaults lib subject value) (references lib subject value)
      (Names lib value) := by
  unfold referencesFaults references
  split
  · next hnull => exact finds_pure (.inl ⟨hnull, rfl⟩)
  · split
    · next harray =>
      exact (finds_mapM (finds_reference subject) (lib.items value)).mono fun all hall =>
        .inr ⟨harray, hall⟩
    · exact rfl

theorem finds_reference? (subject : Subject) (value : V) :
    Finds (endFaults lib subject value) (reference? lib subject value) (Names? lib value) := by
  unfold endFaults reference?
  split
  · next hnull => exact finds_pure hnull
  · next hnull =>
    exact (finds_reference subject value).map fun number hnumber =>
      ⟨Bool.eq_false_iff.2 hnull, hnumber⟩

/-- The tags of all kinds are the texts that name a kind. -/
theorem mem_tags_iff {tag : String} :
    (GateKind.all.map GateKind.tag).contains tag = true ↔ ∃ kind : GateKind, tag = kind.tag := by
  have hall (kind : GateKind) : kind ∈ GateKind.all := by cases kind <;> decide
  rw [List.contains_eq_mem, decide_eq_true_eq, List.mem_map]
  exact ⟨fun ⟨kind, _, htag⟩ => ⟨kind, htag.symm⟩, fun ⟨kind, htag⟩ => ⟨kind, hall kind, htag.symm⟩⟩

theorem finds_toGateKind (subject : Subject) (value : V) :
    Finds (kindFaults lib subject value) (toGateKind lib subject value) fun kind =>
      lib.text? (lib.member "Type" value) = some kind.tag := by
  rw [toGateKind, required_bind, kindFaults]
  split
  · exact rfl
  · cases lib.text? (lib.member "Type" value) with
    | none => exact rfl
    | some tag =>
      dsimp only
      unfold GateKind.ofTag?
      cases hkind : GateKind.all.find? (fun kind => kind.tag == tag) with
      | none =>
        rw [List.find?_eq_none] at hkind
        rw [if_neg]
        · exact rfl
        · rw [List.contains_eq_mem, decide_eq_true_eq, List.mem_map]
          exact fun ⟨kind, hmem, htag⟩ => hkind kind hmem (beq_iff_eq.2 htag)
      | some kind =>
        have hfound := List.find?_some hkind
        have htag : tag = kind.tag := (eq_of_beq hfound).symm
        rw [if_pos (mem_tags_iff.2 ⟨kind, htag⟩)]
        exact finds_pure (congrArg some htag)

theorem finds_toGate (value : V) :
    Finds (gateFaults lib value) (toGate lib value) (ShowsGate lib value) := by
  refine (finds_requiredNumber _ "Id" value).bind fun number hid => ?_
  rw [hid]
  refine (finds_toGateKind _ value).bind fun kind hkind => ?_
  refine (finds_references _ (lib.member "Inputs" value)).bind fun inputs hinputs => ?_
  refine (finds_references _ (lib.member "Outputs" value)).map fun outputs houtputs => ?_
  have hnumbers (numbers : List UInt32) : (numbers.map WireId.mk).map WireId.number = numbers := by
    rw [List.map_map]
    exact List.map_id numbers
  exact {
    id := hid
    kind := hkind
    label := rfl
    inputs := (hnumbers inputs).symm ▸ hinputs
    outputs := (hnumbers outputs).symm ▸ houtputs
    context := rfl
    state := rfl }

theorem finds_toWire (value : V) :
    Finds (wireFaults lib value) (toWire lib value) (ShowsWire lib value) := by
  refine (finds_requiredNumber _ "Id" value).bind fun number hid => ?_
  rw [hid]
  refine (finds_reference? _ (lib.member "Start" value)).bind fun start hstart => ?_
  refine (finds_reference? _ (lib.member "End" value)).map fun stop hstop => ?_
  have hnumber (number : Option UInt32) : (number.map GateId.mk).map GateId.number = number := by
    cases number <;> rfl
  exact {
    id := hid
    desc := rfl
    start := (hnumber start).symm ▸ hstart
    stop := (hnumber stop).symm ▸ hstop
    powered := rfl }

theorem finds_toContext (value : V) :
    Finds (contextFaults lib value) (toContext lib value) (ShowsContext lib value) := by
  refine (finds_requiredNumber _ "Id" value).bind fun number hid => ?_
  rw [hid]
  refine (finds_references _ (lib.member "Children" value)).map fun children hchildren => ?_
  have hnumbers : (children.map ContextId.mk).map ContextId.number = children := by
    rw [List.map_map]
    exact List.map_id children
  exact {
    id := hid
    name := rfl
    depth := rfl
    parent := rfl
    children := hnumbers.symm ▸ hchildren }

/-! ## The whole -/

theorem finds_items {α : Type} {r : V → α → Prop} {faults : V → List SchemaError}
    {reader : V → Read α} (h : ∀ item, Finds (faults item) (reader item) (r item))
    (name : String) (value : V) :
    Finds (arrayFaults lib name faults value) (requiredItems lib name value >>= List.mapM reader)
      (ShowsItems lib r (lib.member name value)) := by
  rw [requiredItems, bind_assoc, required_bind, arrayFaults]
  split
  · exact rfl
  · split
    · next harray =>
      exact (finds_mapM h (lib.items (lib.member name value))).mono fun all hall => ⟨harray, hall⟩
    · exact rfl

theorem finds_toContexts (value : V) :
    Finds (contextsFaults lib value) (toContexts lib value)
      (ShowsItems? lib (ShowsContext lib) (lib.member "Contexts" value)) := by
  unfold contextsFaults toContexts
  split
  · next hnull => exact finds_pure (.inl ⟨hnull, rfl⟩)
  · exact (finds_items finds_toContext "Contexts" value).mono fun all hall => .inr hall

/-- A value is read as the netlist that it shows, or its first fault is reported. -/
theorem finds_toNetlist (value : V) :
    Finds (faults lib value) (toNetlist lib value) (Shows lib value) := by
  unfold faults toNetlist
  split
  · rw [← bind_assoc]
    refine (finds_items finds_toGate "Gates" value).bind fun gates hgates => ?_
    rw [← bind_assoc]
    refine (finds_items finds_toWire "Wires" value).bind fun wires hwires => ?_
    refine (finds_toContexts value).bind fun contexts hcontexts => ?_
    refine (finds_references _ (lib.member "Outputs" value)).map fun outputs houtputs => ?_
    have hnumbers : (outputs.map WireId.mk).map WireId.number = outputs := by
      rw [List.map_map]
      exact List.map_id outputs
    exact {
      gates := hgates
      wires := ⟨wires, hwires, rfl⟩
      contexts := hcontexts
      outputs := hnumbers.symm ▸ houtputs }
  · exact rfl

/-! ## Values without faults -/

section Laws

variable (hkind : lib.KindLaws)
include hkind

theorem idFaults_eq_nil_iff {subject : Subject} {name : String} {value : V} :
    idFaults lib subject name value = [] ↔ IsId lib (lib.member name value) := by
  unfold idFaults IsId
  rw [← Option.isSome_iff_exists]
  split
  · next hnull => simp [hkind.word32?_of_isNull hnull]
  · split
    · next hsome => exact iff_of_true rfl hsome
    · next hnone => exact iff_of_false nofun hnone

theorem referenceFaults_eq_nil_iff {subject : Subject} {value : V} :
    referenceFaults lib subject value = [] ↔ IsReference lib value := by
  unfold referenceFaults IsReference
  split
  · next hobject =>
    have hnumber : ¬IsId lib value := by
      rintro ⟨number, h⟩
      exact Option.some_ne_none number (h.symm.trans (hkind.word32?_of_isObject hobject))
    rw [idFaults_eq_nil_iff hkind]
    simp [hnumber, hobject]
  · next hobject =>
    rw [IsId, ← Option.isSome_iff_exists]
    cases (lib.word32? value).isSome <;> simp [hobject]

omit hkind in
theorem flatMap_faults_eq_nil_iff {faults : V → List SchemaError} {p : V → Prop}
    (h : ∀ item, faults item = [] ↔ p item) {items : List V} :
    items.flatMap faults = [] ↔ ∀ item ∈ items, p item := by
  rw [List.flatMap_eq_nil_iff]
  exact forall₂_congr fun item _ => h item

theorem referencesFaults_eq_nil_iff {subject : Subject} {value : V} :
    referencesFaults lib subject value = [] ↔
      NullOr lib (IsArrayOf lib (IsReference lib)) value := by
  unfold referencesFaults NullOr IsArrayOf
  split
  · next hnull => exact iff_of_true rfl (.inl hnull)
  · next hnull =>
    rw [or_iff_right hnull]
    split
    · next harray =>
      rw [flatMap_faults_eq_nil_iff fun item => referenceFaults_eq_nil_iff hkind,
        and_iff_right harray]
    · next harray => exact iff_of_false nofun fun h => harray h.1

theorem endFaults_eq_nil_iff {subject : Subject} {value : V} :
    endFaults lib subject value = [] ↔ NullOr lib (IsReference lib) value := by
  unfold endFaults NullOr
  split
  · next hnull => exact iff_of_true rfl (.inl hnull)
  · next hnull => rw [or_iff_right hnull, referenceFaults_eq_nil_iff hkind]

theorem kindFaults_eq_nil_iff {subject : Subject} {value : V} :
    kindFaults lib subject value = [] ↔
      ∃ kind : GateKind, lib.text? (lib.member "Type" value) = some kind.tag := by
  unfold kindFaults
  split
  · next hnull => simp [hkind.text?_of_isNull hnull]
  · cases lib.text? (lib.member "Type" value) with
    | none => exact iff_of_false nofun fun ⟨kind, h⟩ => nomatch h
    | some tag =>
      simp only [Option.some.injEq]
      rw [← mem_tags_iff]
      split
      · next h => exact iff_of_true rfl h
      · next h => exact iff_of_false nofun h

theorem gateFaults_eq_nil_iff {value : V} : gateFaults lib value = [] ↔ IsGate lib value := by
  rw [gateFaults, List.append_eq_nil_iff, List.append_eq_nil_iff, List.append_eq_nil_iff,
    idFaults_eq_nil_iff hkind, kindFaults_eq_nil_iff hkind, referencesFaults_eq_nil_iff hkind,
    referencesFaults_eq_nil_iff hkind]
  exact ⟨fun ⟨hid, htype, hinputs, houtputs⟩ => ⟨hid, htype, hinputs, houtputs⟩,
    fun h => ⟨h.id, h.kind, h.inputs, h.outputs⟩⟩

theorem wireFaults_eq_nil_iff {value : V} : wireFaults lib value = [] ↔ IsWire lib value := by
  rw [wireFaults, List.append_eq_nil_iff, List.append_eq_nil_iff, idFaults_eq_nil_iff hkind,
    endFaults_eq_nil_iff hkind, endFaults_eq_nil_iff hkind]
  exact ⟨fun ⟨hid, hstart, hstop⟩ => ⟨hid, hstart, hstop⟩, fun h => ⟨h.id, h.start, h.stop⟩⟩

theorem contextFaults_eq_nil_iff {value : V} :
    contextFaults lib value = [] ↔ IsContext lib value := by
  rw [contextFaults, List.append_eq_nil_iff, idFaults_eq_nil_iff hkind,
    referencesFaults_eq_nil_iff hkind]
  exact ⟨fun ⟨hid, hchildren⟩ => ⟨hid, hchildren⟩, fun h => ⟨h.id, h.children⟩⟩

theorem arrayFaults_eq_nil_iff {name : String} {faults : V → List SchemaError}
    {p : V → Prop} (h : ∀ item, faults item = [] ↔ p item) {value : V} :
    arrayFaults lib name faults value = [] ↔ IsArrayOf lib p (lib.member name value) := by
  unfold arrayFaults IsArrayOf
  split
  · next hnull => simp [hkind.isArray_of_isNull hnull]
  · split
    · next harray => rw [flatMap_faults_eq_nil_iff h, and_iff_right harray]
    · next harray => exact iff_of_false nofun fun h => harray h.1

theorem contextsFaults_eq_nil_iff {value : V} :
    contextsFaults lib value = [] ↔
      NullOr lib (IsArrayOf lib (IsContext lib)) (lib.member "Contexts" value) := by
  unfold contextsFaults NullOr
  split
  · next hnull => exact iff_of_true rfl (.inl hnull)
  · next hnull =>
    rw [or_iff_right hnull, arrayFaults_eq_nil_iff hkind fun item => contextFaults_eq_nil_iff hkind]

/-- A value has no faults exactly if it keeps the schema. -/
theorem faults_eq_nil_iff {value : V} : faults lib value = [] ↔ IsSummary lib value := by
  unfold faults
  split
  · next hobject =>
    rw [List.append_eq_nil_iff, List.append_eq_nil_iff, List.append_eq_nil_iff,
      arrayFaults_eq_nil_iff hkind fun item => gateFaults_eq_nil_iff hkind,
      arrayFaults_eq_nil_iff hkind fun item => wireFaults_eq_nil_iff hkind,
      contextsFaults_eq_nil_iff hkind, referencesFaults_eq_nil_iff hkind]
    exact ⟨fun ⟨hgates, hwires, hcontexts, houtputs⟩ =>
        ⟨hobject, hgates, hwires, hcontexts, houtputs⟩,
      fun h => ⟨h.gates, h.wires, h.contexts, h.outputs⟩⟩
  · next hobject => exact iff_of_false nofun fun h => hobject h.isObject

end Laws

/-- A value is read exactly if it keeps the schema, and then it is read as the netlist that it
shows.  A value that breaks the schema is refused for its first fault: the faults of gates come
before those of wires, then those of contexts and of outputs come.  The text of such a value is
refused for the same fault. -/
theorem toNetlist_accepts (hkind : lib.KindLaws) (value : V) :
    ((∃ n, toNetlist lib value = .ok n) ↔ IsSummary lib value) ∧
      (∀ n, toNetlist lib value = .ok n → Shows lib value n) ∧
      (∀ fault, toNetlist lib value = .error fault ↔ (faults lib value).head? = some fault) ∧
      ∀ text, lib.parse text = .ok value →
        ∀ error, Netlist.ofSummaryTextWith lib text = .error error →
          ∃ fault, error = .schema fault ∧ (faults lib value).head? = some fault := by
  have hfinds : Finds (faults lib value) (toNetlist lib value) (Shows lib value) :=
    finds_toNetlist value
  refine ⟨hfinds.exists_ok_iff.trans (faults_eq_nil_iff hkind), fun n hn => hfinds.of_ok hn,
    hfinds.eq_error_iff, fun text htext error herror => ?_⟩
  rw [Netlist.ofSummaryTextWith, htext] at herror
  change (toNetlist lib value).mapError SummaryError.schema = .error error at herror
  cases hread : toNetlist lib value with
  | ok n =>
    rw [hread] at herror
    cases herror
  | error fault =>
    rw [hread] at herror
    cases herror
    exact ⟨fault, rfl, (hfinds.eq_error_iff fault).1 hread⟩

/-- A summary whose references are written in both ways, with a number for a label, a text for
a flag, and nothing that may be left out. -/
def lenient : Json.Value :=
  .object [
    ("Gates", .array [.object [("Id", .ofNat 1), ("Type", .string "NOT"), ("Label", .ofNat 7),
      ("Inputs", .array [.object [("Id", .ofNat 2)], .ofNat 3]), ("Outputs", .null)]]),
    ("Wires", .array [.object [("Id", .ofNat 2), ("Start", .object [("Id", .ofNat 9)]),
      ("Powered", .string "yes")]])]

/-- A summary with a fault in its second gate, and another one in a wire in front of it. -/
def faulty : Json.Value :=
  .object [
    ("Wires", .array [.null]),
    ("Gates", .array [.object [("Id", .ofNat 1), ("Type", .string "AND")],
      .object [("Id", .ofNat 4), ("Type", .string "XOR")]])]

theorem toNetlist_accepts_lenient :
    Json.standard.KindLaws ∧
      (∃ n, toNetlist Json.standard lenient = .ok n ∧ Shows Json.standard lenient n) ∧
      ¬IsSummary Json.standard faulty ∧
      toNetlist Json.standard faulty = .error (.unknownType (.gate (some ⟨4⟩)) "XOR") := by
  have hkind := Json.kindLaws_standard
  obtain ⟨haccepts, hshows, -⟩ := toNetlist_accepts hkind lenient
  obtain ⟨-, -, hfault, -⟩ := toNetlist_accepts hkind faulty
  obtain ⟨n, hn⟩ := haccepts.2 ((faults_eq_nil_iff hkind).1 (by decide))
  refine ⟨hkind, ⟨n, hn, hshows n hn⟩, fun hfaulty => ?_, (hfault _).2 (by decide)⟩
  exact absurd ((faults_eq_nil_iff hkind).2 hfaulty) (by decide)

end Gatework.Summary
