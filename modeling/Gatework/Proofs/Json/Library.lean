import Gatework.Json.Library
import Mathlib.Data.List.Basic

/-!
# Laws of libraries for JSON

What is relied on where summaries are written and read with a library for JSON.  Each law is
a rule that the documentation of such a library gives for one operation, or for an operation and
its opposite.  No law says how values are represented or how a text looks.

There are five groups.

* `KindLaws`: a value is of one kind.  From what a value is read as it follows what it is not.
* `BuildLaws`: what is built is read as what it has been built from.
* `IndexLaws`: indexing an object by a name gives the member that is listed under the name, and
  null if there is none.
* `TextLaws`: the text of a value is read back.  `Written` says which values are meant.
* The members of objects whose members have been set one after the other.
-/

namespace Gatework.Json.Library

variable {V E : Type} (lib : Library V E)

/-! ## Kinds -/

/-- A value is of one kind.  Null is neither an array nor an object, and no number, text or flag
can be had from it, and an object is no number. -/
structure KindLaws : Prop where
  isNull_null : lib.isNull lib.null = true
  isArray_of_isNull {value : V} : lib.isNull value = true → lib.isArray value = false
  isObject_of_isNull {value : V} : lib.isNull value = true → lib.isObject value = false
  word32?_of_isNull {value : V} : lib.isNull value = true → lib.word32? value = none
  word64?_of_isNull {value : V} : lib.isNull value = true → lib.word64? value = none
  text?_of_isNull {value : V} : lib.isNull value = true → lib.text? value = none
  flag?_of_isNull {value : V} : lib.isNull value = true → lib.flag? value = none
  word32?_of_isObject {value : V} : lib.isObject value = true → lib.word32? value = none

namespace KindLaws

variable {lib} {value : V}

theorem isNull_of_isArray (hkind : lib.KindLaws) (h : lib.isArray value = true) :
    lib.isNull value = false := by
  rw [Bool.eq_false_iff]
  exact fun hnull => Bool.eq_false_iff.1 (hkind.isArray_of_isNull hnull) h

theorem isNull_of_isObject (hkind : lib.KindLaws) (h : lib.isObject value = true) :
    lib.isNull value = false := by
  rw [Bool.eq_false_iff]
  exact fun hnull => Bool.eq_false_iff.1 (hkind.isObject_of_isNull hnull) h

theorem isNull_of_word32? (hkind : lib.KindLaws) {number : UInt32}
    (h : lib.word32? value = some number) : lib.isNull value = false := by
  rw [Bool.eq_false_iff]
  exact fun hnull => Option.some_ne_none _ (h.symm.trans (hkind.word32?_of_isNull hnull))

theorem isNull_of_text? (hkind : lib.KindLaws) {text : String}
    (h : lib.text? value = some text) : lib.isNull value = false := by
  rw [Bool.eq_false_iff]
  exact fun hnull => Option.some_ne_none _ (h.symm.trans (hkind.text?_of_isNull hnull))

theorem isObject_of_word32? (hkind : lib.KindLaws) {number : UInt32}
    (h : lib.word32? value = some number) : lib.isObject value = false := by
  rw [Bool.eq_false_iff]
  exact fun hobject => Option.some_ne_none _ (h.symm.trans (hkind.word32?_of_isObject hobject))

end KindLaws

/-! ## Building -/

/-- What is built is read as what it has been built from. -/
structure BuildLaws : Prop where
  isArray_array (items : List V) : lib.isArray (lib.array items) = true
  items_array (items : List V) : lib.items (lib.array items) = items
  isObject_newObject : lib.isObject lib.newObject = true
  isObject_set {name : String} {value object : V} :
    lib.isObject object = true → lib.isObject (lib.set name value object) = true
  member_set {name : String} {value object : V} :
    lib.isObject object = true → lib.member name (lib.set name value object) = value
  /-- The other members stay as they are. -/
  member_set_of_ne {name other : String} {value object : V} :
    lib.isObject object = true → other ≠ name →
      lib.member other (lib.set name value object) = lib.member other object
  word32?_ofWord32 (number : UInt32) : lib.word32? (lib.ofWord32 number) = some number
  word64?_ofWord64 {number : Nat} :
    number < UInt64.size → lib.word64? (lib.ofWord64 number) = some number
  text?_ofText (text : String) : lib.text? (lib.ofText text) = some text
  flag?_ofFlag (flag : Bool) : lib.flag? (lib.ofFlag flag) = some flag

/-! ## Indexing -/

/-- Indexing a value by a name gives the member that is listed under the name.  It gives null if
no member is, as for what is no object. -/
structure IndexLaws (entries : V → List (String × V)) : Prop where
  member_of_mem {name : String} {member value : V} :
    (name, member) ∈ entries value → lib.member name value = member
  member_of_not_mem {name : String} {value : V} :
    name ∉ (entries value).map Prod.fst → lib.member name value = lib.null

/-! ## Texts -/

/-- The values that can be built with some levels of arrays and objects. -/
inductive Written : Nat → V → Prop
  | null {levels : Nat} : Written levels lib.null
  | word32 {levels : Nat} (number : UInt32) : Written levels (lib.ofWord32 number)
  | word64 {levels number : Nat} (h : number < UInt64.size) : Written levels (lib.ofWord64 number)
  | text {levels : Nat} (text : String) : Written levels (lib.ofText text)
  | flag {levels : Nat} (flag : Bool) : Written levels (lib.ofFlag flag)
  | array {levels : Nat} {items : List V} (h : ∀ item ∈ items, Written levels item) :
      Written (levels + 1) (lib.array items)
  | object {levels : Nat} {members : List (String × V)}
      (h : ∀ member ∈ members, Written levels member.2) :
      Written (levels + 1) (lib.object members)

/-- The text of a value is read back as the value, also if a line break follows it. -/
structure TextLaws : Prop where
  parse_write {value : V} :
    lib.Written depthLimit value → lib.parse (lib.write value ++ "\n") = .ok value

/-! ## Objects -/

namespace BuildLaws

variable {lib} {members : List (String × V)} {name : String} {value object : V}

theorem isObject_setAll (hbuild : lib.BuildLaws) (h : lib.isObject object = true) :
    lib.isObject (lib.setAll members object) = true := by
  induction members generalizing object with
  | nil => exact h
  | cons member rest ih => exact ih (hbuild.isObject_set h)

theorem member_setAll_of_not_mem (hbuild : lib.BuildLaws) (hobject : lib.isObject object = true)
    (h : name ∉ members.map Prod.fst) :
    lib.member name (lib.setAll members object) = lib.member name object := by
  induction members generalizing object with
  | nil => rfl
  | cons member rest ih =>
    rw [List.map_cons, List.mem_cons, not_or] at h
    exact (ih (hbuild.isObject_set hobject) h.2).trans (hbuild.member_set_of_ne hobject h.1)

theorem member_setAll (hbuild : lib.BuildLaws) (hobject : lib.isObject object = true)
    (hnames : (members.map Prod.fst).Nodup) (h : members.lookup name = some value) :
    lib.member name (lib.setAll members object) = value := by
  induction members generalizing object with
  | nil => cases h
  | cons member rest ih =>
    obtain ⟨other, first⟩ := member
    rw [List.map_cons, List.nodup_cons] at hnames
    have hset : lib.isObject (lib.set other first object) = true := hbuild.isObject_set hobject
    rw [List.lookup_cons] at h
    split at h
    · next hname =>
      cases h
      cases eq_of_beq hname
      exact (hbuild.member_setAll_of_not_mem hset hnames.1).trans (hbuild.member_set hobject)
    · exact ih hset hnames.2 h

theorem isObject_object (hbuild : lib.BuildLaws) (members : List (String × V)) :
    lib.isObject (lib.object members) = true :=
  hbuild.isObject_setAll hbuild.isObject_newObject

/-- The members of an object are found under their names, if these are different. -/
theorem member_object (hbuild : lib.BuildLaws) (hnames : (members.map Prod.fst).Nodup)
    (h : members.lookup name = some value) : lib.member name (lib.object members) = value :=
  hbuild.member_setAll hbuild.isObject_newObject hnames h

end BuildLaws

end Gatework.Json.Library
