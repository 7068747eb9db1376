import Gatework.Proofs.Summary.RoundTrip
import Mathlib.Data.List.Nodup
import Mathlib.Logic.Relation

/-!
# Spellings of a summary

One netlist has many summaries.  References may be written as objects, members that hold what
they are taken for anyway may be left out or be null, members of other names may be added, and
the order of members is free.  However such edits are combined, the summary is read as the same
netlist.  That holds for every library for JSON whose indexing finds the members that it lists.

There are six groups.

* The edits: `Field` describes a member, `Edit` is one edit of the members of an object, and
  `Respells` is any number of edits of a summary.
* `member_edit`: what an edit does to the member of a field.
* The readings of members do not notice an edit.
* The readers of gates, wires and contexts do not.
* Nor does the one of whole summaries, however many edits there are.  `toNetlist_of_respells` is
  the result, for all spellings of the summary of a netlist.
* A summary of the standard library, and five edits of it.
-/

namespace Gatework.Summary

variable {V E : Type} (lib : Json.Library V E) (entries : V → List (String × V))

/-! ## Edits -/

/-- A number that names something is replaced by an object whose `Id` it is. -/
inductive ReferenceEdit : V → V → Prop
  | named {value object : V} {number : UInt32} (h : lib.word32? value = some number)
      (hobject : lib.isObject object = true)
      (hid : lib.word32? (lib.member "Id" object) = some number) : ReferenceEdit value object

/-- One item of an array is edited. -/
inductive ItemEdit (edit : V → V → Prop) : V → V → Prop
  | item {value value' item item' : V} {front back : List V} (harray : lib.isArray value = true)
      (harray' : lib.isArray value' = true) (hitems : lib.items value = front ++ item :: back)
      (hitems' : lib.items value' = front ++ item' :: back) (h : edit item item') :
      ItemEdit edit value value'

/-- Whether a value is an array without items. -/
def IsEmptyArray (value : V) : Prop := lib.isArray value = true ∧ lib.items value = []

/-- A member that objects of some sort have. -/
structure Field (V : Type) where
  name : String
  /-- Whether a value is what the member is taken for where it is absent. -/
  isDefault : V → Prop
  /-- The edits of the value of the member. -/
  edit : V → V → Prop

namespace Field

/-- A member that stays as it is. -/
def fixed (name : String) : Field V := ⟨name, fun _ => False, fun _ _ => False⟩

/-- A member that may be left out if it has some value. -/
def plain (name : String) (isDefault : V → Prop) : Field V := ⟨name, isDefault, fun _ _ => False⟩

/-- A reference, which may be left out if there is none. -/
def reference (name : String) : Field V :=
  ⟨name, fun value => lib.isNull value = true, ReferenceEdit lib⟩

/-- A list of references, which may be left out if it is empty. -/
def references (name : String) : Field V :=
  ⟨name, IsEmptyArray lib, ItemEdit lib (ReferenceEdit lib)⟩

end Field

/-- One edit of the members of an object with some fields. -/
inductive Edit (fields : List (Field V)) : List (String × V) → List (String × V) → Prop
  | reorder {members members' : List (String × V)} (h : members.Perm members') :
      Edit fields members members'
  | add {front back : List (String × V)} {name : String} (value : V)
      (h : name ∉ fields.map Field.name) :
      Edit fields (front ++ back) (front ++ (name, value) :: back)
  | leaveOut {front back : List (String × V)} {field : Field V} {value : V}
      (hfield : field ∈ fields) (h : field.isDefault value) :
      Edit fields (front ++ (field.name, value) :: back) (front ++ back)
  | nullify {front back : List (String × V)} {field : Field V} {value : V}
      (hfield : field ∈ fields) (h : field.isDefault value) :
      Edit fields (front ++ (field.name, value) :: back) (front ++ (field.name, lib.null) :: back)
  | inside {front back : List (String × V)} {field : Field V} {value value' : V}
      (hfield : field ∈ fields) (h : field.edit value value') :
      Edit fields (front ++ (field.name, value) :: back) (front ++ (field.name, value') :: back)

/-- One edit of an object. -/
structure ObjectEdit (fields : List (Field V)) (value value' : V) : Prop where
  isObject : lib.isObject value = true
  isObject' : lib.isObject value' = true
  edit : Edit lib fields (entries value) (entries value')

/-- The members of a gate. -/
def gateFields : List (Field V) := [
  .fixed "Id", .fixed "Type", .plain "Label" fun value => lib.text? value = some "",
  .references lib "Inputs", .references lib "Outputs",
  .plain "CallingContext" fun value => lib.word32? value = some 0,
  .plain "State" fun value => lib.text? value = some ""]

/-- The members of a wire. -/
def wireFields : List (Field V) := [
  .fixed "Id", .plain "Desc" fun value => lib.isNull value = true, .reference lib "Start",
  .reference lib "End", .plain "Powered" fun value => lib.flag? value = some false]

/-- The members of a context. -/
def contextFields : List (Field V) := [
  .fixed "Id", .plain "Name" fun value => lib.text? value = some "",
  .plain "Depth" fun value => lib.word64? value = some 0,
  .plain "Parent" fun value => lib.word32? value = some 0, .references lib "Children"]

/-- The members of a summary.  The gates and the wires have to be there. -/
def summaryFields : List (Field V) := [
  ⟨"Gates", fun _ => False, ItemEdit lib (ObjectEdit lib entries (gateFields lib))⟩,
  ⟨"Wires", fun _ => False, ItemEdit lib (ObjectEdit lib entries (wireFields lib))⟩,
  ⟨"Contexts", IsEmptyArray lib, ItemEdit lib (ObjectEdit lib entries (contextFields lib))⟩,
  .references lib "Outputs"]

/-- Any number of edits of a summary. -/
def Respells : V → V → Prop :=
  Relation.ReflTransGen (ObjectEdit lib entries (summaryFields lib entries))

/-! ## Members of edited objects -/

variable {lib entries}

section Members

variable {name : String} {value value' member : V}

/-- Two values have the same member of a name if they list the same members of it. -/
theorem member_congr (hindex : lib.IndexLaws entries)
    (h : ∀ member, (name, member) ∈ entries value' ↔ (name, member) ∈ entries value) :
    lib.member name value' = lib.member name value := by
  by_cases hname : name ∈ (entries value).map Prod.fst
  · obtain ⟨⟨_, member⟩, hmember, rfl⟩ := List.mem_map.1 hname
    rw [hindex.member_of_mem hmember, hindex.member_of_mem ((h member).2 hmember)]
  · have hname' : name ∉ (entries value').map Prod.fst := by
      intro hmem
      obtain ⟨⟨_, member⟩, hmember, rfl⟩ := List.mem_map.1 hmem
      exact hname (List.mem_map_of_mem ((h member).1 hmember))
    rw [hindex.member_of_not_mem hname, hindex.member_of_not_mem hname']

theorem member_middle (hindex : lib.IndexLaws entries) {front back : List (String × V)}
    (h : entries value = front ++ (name, member) :: back) : lib.member name value = member :=
  hindex.member_of_mem (h ▸ List.mem_append_right _ List.mem_cons_self)

/-- Without one of the members of a name, another one is found, which is the same, or none. -/
theorem member_removed (hindex : lib.IndexLaws entries) {front back : List (String × V)}
    (hold : entries value = front ++ (name, member) :: back)
    (hnew : entries value' = front ++ back) :
    lib.member name value' = member ∨ lib.member name value' = lib.null := by
  by_cases hname : name ∈ (entries value').map Prod.fst
  · obtain ⟨⟨first, other⟩, hother, rfl⟩ := List.mem_map.1 hname
    have hmem : (first, other) ∈ entries value := by
      rw [hnew] at hother
      rw [hold]
      exact (List.Sublist.append_left (List.sublist_cons_self _ _) _).subset hother
    rw [hindex.member_of_mem hother, ← member_middle hindex hold, hindex.member_of_mem hmem]
    exact Or.inl rfl
  · exact Or.inr (hindex.member_of_not_mem hname)

theorem mem_middle_of_ne {other : String} {front back : List (String × V)}
    (h : other ≠ name) :
    (name, member) ∈ front ++ (other, value) :: back ↔ (name, member) ∈ front ++ back := by
  simp [h.symm]

end Members

/-- What becomes of the value of a field: it stays, it was the default and is null or absent
now, or it has been edited. -/
def Field.Edited (lib : Json.Library V E) (field : Field V) (value value' : V) : Prop :=
  value' = value ∨ (field.isDefault value ∧ lib.isNull value' = true) ∨ field.edit value value'

/-- An edit of an object edits the value of at most one field. -/
theorem member_edit (hkind : lib.KindLaws) (hindex : lib.IndexLaws entries)
    {fields : List (Field V)} (hnames : (fields.map Field.name).Nodup) {value value' : V}
    (h : ObjectEdit lib entries fields value value') :
    ∀ field ∈ fields,
      field.Edited lib (lib.member field.name value) (lib.member field.name value') := by
  intro field hfield
  obtain ⟨-, -, hedit⟩ := h
  have hsame {other : Field V} (hother : other ∈ fields) (hname : other.name = field.name) :
      other = field := List.inj_on_of_nodup_map hnames hother hfield hname
  -- The lists index the edit, so `cases` needs them as variables.
  generalize hold : entries value = members at hedit
  generalize hnew : entries value' = members' at hedit
  cases hedit with
  | reorder hperm =>
    refine Or.inl (member_congr hindex fun member => ?_)
    rw [hold, hnew, hperm.mem_iff]
  | @add front back name added hname =>
    have hne : name ≠ field.name := by
      rintro rfl
      exact hname (List.mem_map_of_mem hfield)
    refine Or.inl (member_congr hindex fun member => ?_)
    rw [hold, hnew, mem_middle_of_ne hne]
  | @leaveOut front back other default hother hdefault =>
    by_cases hname : other.name = field.name
    · cases hsame hother hname
      rw [member_middle hindex hold]
      obtain hrest | hrest := member_removed hindex hold hnew
      · exact Or.inl hrest
      · rw [hrest]
        exact Or.inr (Or.inl ⟨hdefault, hkind.isNull_null⟩)
    · refine Or.inl (member_congr hindex fun member => ?_)
      rw [hold, hnew, mem_middle_of_ne hname]
  | @nullify front back other default hother hdefault =>
    by_cases hname : other.name = field.name
    · cases hsame hother hname
      rw [member_middle hindex hold, member_middle hindex hnew]
      exact Or.inr (Or.inl ⟨hdefault, hkind.isNull_null⟩)
    · refine Or.inl (member_congr hindex fun member => ?_)
      rw [hold, hnew, mem_middle_of_ne hname, mem_middle_of_ne hname]
  | @inside front back other old new hother hedit =>
    by_cases hname : other.name = field.name
    · cases hsame hother hname
      rw [member_middle hindex hold, member_middle hindex hnew]
      exact Or.inr (Or.inr hedit)
    · refine Or.inl (member_congr hindex fun member => ?_)
      rw [hold, hnew, mem_middle_of_ne hname, mem_middle_of_ne hname]

/-! ## Readings of members -/

theorem Field.eq_of_fixed {name : String} {member member' : V}
    (h : (Field.fixed name).Edited lib member member') : member' = member := by
  obtain h | ⟨h, -⟩ | h := h
  · exact h
  · cases h
  · cases h

/-- A reading that takes null for the default does not notice an edit. -/
theorem Field.read_of_plain {α : Type} {name : String} {isDefault : V → Prop} {member member' : V}
    (read : V → α) (h : (Field.plain name isDefault).Edited lib member member')
    (hread : ∀ null default, lib.isNull null = true → isDefault default →
      read null = read default) : read member' = read member := by
  obtain rfl | ⟨hdefault, hnull⟩ | h := h
  · rfl
  · exact hread member' member hnull hdefault
  · cases h

theorem Field.getD_of_plain {α : Type} {name : String} {default : α} {member member' : V}
    {read : V → Option α}
    (h : (Field.plain name fun value => read value = some default).Edited lib member member')
    (hread : ∀ null, lib.isNull null = true → read null = none) :
    (read member').getD default = (read member).getD default := by
  refine Field.read_of_plain (fun member => (read member).getD default) h ?_
  intro null value hnull hvalue
  rw [hread null hnull, hvalue]
  rfl

/-- The items of an array are read alike if no edit of an item is noticed. -/
theorem mapM_items_of_itemEdit {α : Type} {read : V → Read α} {edit : V → V → Prop}
    {member member' : V} (h : ItemEdit lib edit member member')
    (hread : ∀ item item', edit item item' → read item' = read item) :
    lib.isArray member = true ∧ lib.isArray member' = true ∧
      (lib.items member').mapM read = (lib.items member).mapM read := by
  obtain ⟨harray, harray', hitems, hitems', hitem⟩ := h
  refine ⟨harray, harray', ?_⟩
  rw [hitems, hitems', List.mapM_append, List.mapM_append, List.mapM_cons, List.mapM_cons,
    hread _ _ hitem]

section Readings

variable {name : String} {value value' : V} {subject : Subject}

theorem requiredNumber_edited
    (h : (Field.fixed name).Edited lib (lib.member name value) (lib.member name value')) :
    requiredNumber lib subject name value' = requiredNumber lib subject name value := by
  rw [requiredNumber, requiredNumber, required, required, Field.eq_of_fixed h]

theorem toGateKind_edited
    (h : (Field.fixed "Type").Edited lib (lib.member "Type" value) (lib.member "Type" value')) :
    toGateKind lib subject value' = toGateKind lib subject value := by
  rw [toGateKind, toGateKind, required, required, Field.eq_of_fixed h]

section Laws

variable (hkind : lib.KindLaws)
include hkind

theorem reference_edit {member member' : V} (h : ReferenceEdit lib member member') :
    reference lib subject member' = reference lib subject member := by
  obtain ⟨hnumber, hobject, hid⟩ := h
  rw [reference_of_word32? hkind hnumber, reference, if_pos hobject]
  exact requiredNumber_of_member hkind hid

theorem textOr_edited (h : (Field.plain name fun value => lib.text? value = some "").Edited lib
      (lib.member name value) (lib.member name value')) :
    textOr lib name value' = textOr lib name value :=
  Field.getD_of_plain h fun _ => hkind.text?_of_isNull

theorem numberOr_edited (h : (Field.plain name fun value => lib.word32? value = some 0).Edited lib
      (lib.member name value) (lib.member name value')) :
    numberOr lib name value' = numberOr lib name value :=
  Field.getD_of_plain h fun _ => hkind.word32?_of_isNull

theorem references_edited (h : (Field.references lib name).Edited lib (lib.member name value)
      (lib.member name value')) :
    references lib subject (lib.member name value') =
      references lib subject (lib.member name value) := by
  obtain h | ⟨⟨harray, hitems⟩, hnull⟩ | hedit := h
  · rw [h]
  · rw [references_of_isArray hkind harray, hitems, references, if_pos hnull]
    rfl
  · obtain ⟨harray, harray', hread⟩ := mapM_items_of_itemEdit hedit fun _ _ => reference_edit hkind
    rw [references_of_isArray hkind harray, references_of_isArray hkind harray']
    exact hread

theorem reference?_edited (h : (Field.reference lib name).Edited lib (lib.member name value)
      (lib.member name value')) :
    reference? lib subject (lib.member name value') =
      reference? lib subject (lib.member name value) := by
  obtain h | ⟨hdefault, hnull⟩ | hedit := h
  · rw [h]
  · have hdefault : lib.isNull (lib.member name value) = true := hdefault
    rw [reference?, reference?, if_pos hnull, if_pos hdefault]
  · have hread : reference lib subject (lib.member name value') =
        reference lib subject (lib.member name value) := reference_edit hkind hedit
    obtain ⟨hnumber, hobject, -⟩ := hedit
    rw [reference?, reference?, hkind.isNull_of_isObject hobject, hkind.isNull_of_word32? hnumber,
      hread]

/-! ## Parts -/

variable (hindex : lib.IndexLaws entries)
include hindex

theorem toGate_edit (h : ObjectEdit lib entries (gateFields lib) value value') :
    toGate lib value' = toGate lib value := by
  have hnames : ((gateFields lib).map Field.name).Nodup := by
    change ["Id", "Type", "Label", "Inputs", "Outputs", "CallingContext", "State"].Nodup
    decide
  have hedited := member_edit hkind hindex hnames h
  simp only [gateFields, List.mem_cons, forall_eq_or_imp] at hedited
  obtain ⟨hid, hkinds, hlabel, hinputs, houtputs, hcontext, hstate, -⟩ := hedited
  unfold toGate
  simp only [requiredNumber_edited hid, toGateKind_edited hkinds, references_edited hkind hinputs,
    references_edited hkind houtputs, textOr_edited hkind hlabel, numberOr_edited hkind hcontext,
    textOr_edited hkind hstate]

theorem toWire_edit (h : ObjectEdit lib entries (wireFields lib) value value') :
    toWire lib value' = toWire lib value := by
  have hnames : ((wireFields lib).map Field.name).Nodup := by
    change ["Id", "Desc", "Start", "End", "Powered"].Nodup
    decide
  have hedited := member_edit hkind hindex hnames h
  simp only [wireFields, List.mem_cons, forall_eq_or_imp] at hedited
  obtain ⟨hid, hdesc, hstart, hstop, hpowered, -⟩ := hedited
  have hdesc : lib.text? (lib.member "Desc" value') = lib.text? (lib.member "Desc" value) := by
    refine Field.read_of_plain lib.text? hdesc fun null default hnull hdefault => ?_
    rw [hkind.text?_of_isNull hnull, hkind.text?_of_isNull hdefault]
  have hpowered : (lib.flag? (lib.member "Powered" value')).getD false =
      (lib.flag? (lib.member "Powered" value)).getD false :=
    Field.getD_of_plain hpowered fun _ => hkind.flag?_of_isNull
  unfold toWire
  simp only [requiredNumber_edited hid, reference?_edited hkind hstart,
    reference?_edited hkind hstop, hdesc, hpowered]

theorem toContext_edit (h : ObjectEdit lib entries (contextFields lib) value value') :
    toContext lib value' = toContext lib value := by
  have hnames : ((contextFields lib).map Field.name).Nodup := by
    change ["Id", "Name", "Depth", "Parent", "Children"].Nodup
    decide
  have hedited := member_edit hkind hindex hnames h
  simp only [contextFields, List.mem_cons, forall_eq_or_imp] at hedited
  obtain ⟨hid, hname, hdepth, hparent, hchildren, -⟩ := hedited
  have hdepth : (lib.word64? (lib.member "Depth" value')).getD 0 =
      (lib.word64? (lib.member "Depth" value)).getD 0 :=
    Field.getD_of_plain hdepth fun _ => hkind.word64?_of_isNull
  unfold toContext
  simp only [requiredNumber_edited hid, references_edited hkind hchildren,
    textOr_edited hkind hname, numberOr_edited hkind hparent, hdepth]

/-! ## The whole -/

omit hindex in
/-- The items of a member that has to be there are read alike if no edit of an item is
noticed. -/
theorem requiredItems_edited {α : Type} {read : V → Read α} {edit : V → V → Prop}
    (hread : ∀ item item', edit item item' → read item' = read item)
    (h : (Field.mk name (fun _ => False) (ItemEdit lib edit)).Edited lib (lib.member name value)
      (lib.member name value')) :
    requiredItems lib name value' >>= List.mapM read =
      requiredItems lib name value >>= List.mapM read := by
  obtain h | ⟨hdefault, -⟩ | hedit := h
  · rw [requiredItems, requiredItems, required, required, h]
  · cases hdefault
  · obtain ⟨harray, harray', hsame⟩ := mapM_items_of_itemEdit hedit hread
    rw [requiredItems_of_isArray hkind harray, requiredItems_of_isArray hkind harray']
    exact hsame

theorem toContexts_edited (h : (Field.mk "Contexts" (IsEmptyArray lib)
      (ItemEdit lib (ObjectEdit lib entries (contextFields lib)))).Edited lib
      (lib.member "Contexts" value) (lib.member "Contexts" value')) :
    toContexts lib value' = toContexts lib value := by
  obtain h | ⟨⟨harray, hitems⟩, hnull⟩ | hedit := h
  · rw [toContexts, toContexts, requiredItems, requiredItems, required, required, h]
  · rw [toContexts, toContexts, requiredItems_of_isArray hkind harray, hitems, if_pos hnull,
      hkind.isNull_of_isArray harray]
    rfl
  · obtain ⟨harray, harray', hsame⟩ :=
      mapM_items_of_itemEdit hedit fun _ _ => toContext_edit hkind hindex
    rw [toContexts, toContexts, requiredItems_of_isArray hkind harray,
      requiredItems_of_isArray hkind harray', hkind.isNull_of_isArray harray,
      hkind.isNull_of_isArray harray']
    exact hsame

/-- An edited summary is read like the one before, whatever it is read as. -/
theorem toNetlist_edit (h : ObjectEdit lib entries (summaryFields lib entries) value value') :
    toNetlist lib value' = toNetlist lib value := by
  have hnames : ((summaryFields lib entries).map Field.name).Nodup := by
    change ["Gates", "Wires", "Contexts", "Outputs"].Nodup
    decide
  have hedited := member_edit hkind hindex hnames h
  simp only [summaryFields, List.mem_cons, forall_eq_or_imp] at hedited
  obtain ⟨hgates, hwires, hcontexts, houtputs, -⟩ := hedited
  have hgates : requiredItems lib "Gates" value' >>= List.mapM (toGate lib) =
      requiredItems lib "Gates" value >>= List.mapM (toGate lib) :=
    requiredItems_edited hkind (fun _ _ => toGate_edit hkind hindex) hgates
  have hwires : requiredItems lib "Wires" value' >>= List.mapM (toWire lib) =
      requiredItems lib "Wires" value >>= List.mapM (toWire lib) :=
    requiredItems_edited hkind (fun _ _ => toWire_edit hkind hindex) hwires
  unfold toNetlist
  simp only [← bind_assoc, h.isObject, h.isObject', hgates, hwires,
    toContexts_edited hkind hindex hcontexts, references_edited hkind houtputs]

/-- However often a summary is edited, it is read alike. -/
theorem toNetlist_respells (h : Respells lib entries value value') :
    toNetlist lib value' = toNetlist lib value := by
  induction h with
  | refl => rfl
  | tail _ hedit ih => exact (toNetlist_edit hkind hindex hedit).trans ih

end Laws

end Readings

/-- Whatever the netlist and whatever edits have been made to its summary, the summary is read
as the netlist, if the depths of its contexts are numbers of 64 bits. -/
theorem toNetlist_of_respells (hkind : lib.KindLaws) (hbuild : lib.BuildLaws)
    (hindex : lib.IndexLaws entries) {n : Netlist} {value : V}
    (hdepth : ∀ context ∈ n.contexts, context.depth < UInt64.size)
    (h : Respells lib entries (ofNetlist lib n) value) : toNetlist lib value = .ok n :=
  (toNetlist_respells hkind hindex h).trans (toNetlist_ofNetlist hkind hbuild hdepth)

/-! ## A summary of the standard library -/

open Json (Value)

/-- Objects of the standard library are edited by their members. -/
theorem objectEdit_standard {fields : List (Field Value)} {members members' : List (String × Value)}
    (hnames : (members.map Prod.fst).Nodup) (hnames' : (members'.map Prod.fst).Nodup)
    (h : Edit Json.standard fields members members') :
    ObjectEdit Json.standard Value.entries fields (.object members) (.object members') where
  isObject := rfl
  isObject' := rfl
  edit := by rwa [Value.entries_object hnames, Value.entries_object hnames']

/-- A negation whose input is an output, too.  Its context is among its own children. -/
def inverter : Netlist where
  wires := .ofList [⟨⟨2⟩, none, none, some ⟨7⟩, true⟩]
  gates := [⟨⟨7⟩, .negation, "", [⟨2⟩], [], ⟨1⟩, ""⟩]
  contexts := [⟨⟨1⟩, "f", 1, .root, [⟨1⟩]⟩]
  outputs := [⟨2⟩]

/-- The summary of `inverter` with other members for its gate. -/
def inverterSummary (gate : List (String × Value)) : List (String × Value) := [
  ("Gates", .array [.object gate]),
  ("Wires", .array [.object [("Id", .ofNat 2), ("Desc", .null), ("Start", .null),
    ("End", .ofNat 7), ("Powered", .bool true)]]),
  ("Contexts", .array [.object [("Id", .ofNat 1), ("Name", .string "f"), ("Depth", .ofNat 1),
    ("Parent", .ofNat 0), ("Children", .array [.ofNat 1])]]),
  ("Outputs", .array [.ofNat 2])]

/-- The members of the gate of `inverter`, the label left out, the state null and the input
an object. -/
def inverterGate : List (String × Value) := [
  ("Id", .ofNat 7), ("Type", .string "NOT"),
  ("Inputs", .array [.object [("Id", .ofNat 2), ("Powered", .bool false)]]),
  ("Outputs", .array []), ("CallingContext", .ofNat 1), ("State", .null)]

theorem toNetlist_of_respells_inverter :
    (Json.standard.KindLaws ∧ Json.standard.BuildLaws ∧
      Json.standard.IndexLaws Value.entries) ∧
      (∀ context ∈ inverter.contexts, context.depth < UInt64.size) ∧
      Respells Json.standard Value.entries (ofNetlist Json.standard inverter)
        (.object (("Version", .null) :: (inverterSummary inverterGate).reverse)) ∧
      toNetlist Json.standard
        (.object (("Version", .null) :: (inverterSummary inverterGate).reverse)) =
          .ok inverter := by
  have hgate {gate gate' : List (String × Value)} (hnames : (gate.map Prod.fst).Nodup)
      (hnames' : (gate'.map Prod.fst).Nodup)
      (h : Edit Json.standard (gateFields Json.standard) gate gate') :
      ObjectEdit Json.standard Value.entries (summaryFields Json.standard Value.entries)
        (.object (inverterSummary gate)) (.object (inverterSummary gate')) := by
    have hsummary : ["Gates", "Wires", "Contexts", "Outputs"].Nodup := by decide
    refine objectEdit_standard hsummary hsummary ?_
    exact @Edit.inside _ _ _ _ [] _ ⟨"Gates", fun _ => False, ItemEdit Json.standard
      (ObjectEdit Json.standard Value.entries (gateFields Json.standard))⟩ _ _ (.head _)
      (@ItemEdit.item _ _ _ _ _ _ _ _ [] [] rfl rfl rfl rfl
        (objectEdit_standard hnames hnames' h))
  have hlabel := hgate (by decide) (by decide) (@Edit.leaveOut _ _ Json.standard _
    [("Id", .ofNat 7), ("Type", .string "NOT")]
    [("Inputs", .array [.ofNat 2]), ("Outputs", .array []), ("CallingContext", .ofNat 1),
      ("State", .string "")]
    (.plain "Label" fun value => Json.standard.text? value = some "") (.string "")
    (by simp [gateFields]) rfl)
  have hstate := hgate (by decide) (by decide) (@Edit.nullify _ _ Json.standard _
    [("Id", .ofNat 7), ("Type", .string "NOT"), ("Inputs", .array [.ofNat 2]),
      ("Outputs", .array []), ("CallingContext", .ofNat 1)] []
    (.plain "State" fun value => Json.standard.text? value = some "") (.string "")
    (by simp [gateFields]) rfl)
  have hobject : ReferenceEdit Json.standard (.ofNat 2)
      (.object [("Id", .ofNat 2), ("Powered", .bool false)]) := .named rfl rfl rfl
  have hinput := hgate (by decide) (by decide) (@Edit.inside _ _ Json.standard _
    [("Id", .ofNat 7), ("Type", .string "NOT")]
    [("Outputs", .array []), ("CallingContext", .ofNat 1), ("State", .null)]
    (.references Json.standard "Inputs") (.array [.ofNat 2])
    (.array [.object [("Id", .ofNat 2), ("Powered", .bool false)]]) (by simp [gateFields])
    (@ItemEdit.item _ _ _ _ _ _ _ _ [] [] rfl rfl rfl rfl hobject))
  have horder : ObjectEdit Json.standard Value.entries (summaryFields Json.standard Value.entries)
      (.object (inverterSummary inverterGate)) (.object (inverterSummary inverterGate).reverse) :=
    objectEdit_standard (by decide) (by decide) (.reorder (List.reverse_perm _).symm)
  have hversion : ObjectEdit Json.standard Value.entries
      (summaryFields Json.standard Value.entries)
      (.object (inverterSummary inverterGate).reverse) _ :=
    objectEdit_standard (by decide) (by decide)
      (@Edit.add _ _ _ _ [] _ "Version" .null (by simp [summaryFields, Field.references]))
  have h : Respells Json.standard Value.entries (ofNetlist Json.standard inverter) _ :=
    ((((Relation.ReflTransGen.single hlabel).tail hstate).tail hinput).tail horder).tail hversion
  have hdepth : ∀ context ∈ inverter.contexts, context.depth < UInt64.size := by decide
  exact ⟨⟨Json.kindLaws_standard, Json.buildLaws_standard, Json.indexLaws_standard⟩, hdepth, h,
    toNetlist_of_respells Json.kindLaws_standard Json.buildLaws_standard Json.indexLaws_standard
      hdepth h⟩

end Gatework.Summary
