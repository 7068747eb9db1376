import Gatework.Json.Standard
import Gatework.Proofs.Json.Library
import Gatework.Proofs.Json.RoundTrip
import Mathlib.Data.List.Dedup

/-!
# The laws of the standard library

The standard library for JSON keeps the laws of a library for JSON.

There are four groups.

* `kindLaws_standard`: the kinds of values are constructors of `Value`.
* The members of a name.  `member_object` finds the last of them, and `setMember` leaves one.
* `buildLaws_standard` and `indexLaws_standard`.  `Value.entries` lists each name once.
* `textLaws_standard`: what can be built within some levels fits the reader.
-/

namespace Gatework.Json

/-! ## Kinds -/

theorem Value.eq_null_of_isNull {value : Value} (h : value.isNull = true) : value = .null := by
  cases value with
  | null => rfl
  | _ => cases h

theorem Value.exists_eq_object_of_isObject {value : Value} (h : value.isObject = true) :
    ∃ members, value = .object members := by
  cases value with
  | object members => exact ⟨members, rfl⟩
  | _ => cases h

theorem kindLaws_standard : standard.KindLaws where
  isNull_null := rfl
  isArray_of_isNull h := by rw [Value.eq_null_of_isNull h]; rfl
  isObject_of_isNull h := by rw [Value.eq_null_of_isNull h]; rfl
  word32?_of_isNull h := by rw [Value.eq_null_of_isNull h]; rfl
  word64?_of_isNull h := by rw [Value.eq_null_of_isNull h]; rfl
  text?_of_isNull h := by rw [Value.eq_null_of_isNull h]; rfl
  flag?_of_isNull h := by rw [Value.eq_null_of_isNull h]; rfl
  word32?_of_isObject h := by
    obtain ⟨members, rfl⟩ := Value.exists_eq_object_of_isObject h
    rfl

/-! ## Members of a name -/

namespace Value

variable {name other : String} {value : Value} {members : List (String × Value)}

/-- The members of a name. -/
def named (name : String) (members : List (String × Value)) : List (String × Value) :=
  members.filter fun member => member.1 = name

theorem member_object (name : String) (members : List (String × Value)) :
    (object members).member name = ((named name members).getLast?.map Prod.snd).getD .null := by
  have hfind : (members.reverse.find? fun member => member.1 == name) =
      members.reverse.find? fun member => decide (member.1 = name) := rfl
  rw [named, ← List.head?_reverse, ← List.filter_reverse, List.head?_filter, member, hfind]
  cases members.reverse.find? fun member => decide (member.1 = name) <;> rfl

theorem member_object_of_mem (hnames : (members.map Prod.fst).Nodup) (h : (name, value) ∈ members) :
    (object members).member name = value := by
  have hnamed : (name, value) ∈ named name members := List.mem_filter.2 ⟨h, decide_eq_true rfl⟩
  rw [member_object]
  cases hlast : (named name members).getLast? with
  | none =>
    rw [List.getLast?_eq_none_iff.1 hlast] at hnamed
    cases hnamed
  | some last =>
    obtain ⟨hmem, hname⟩ := List.mem_filter.1 (List.mem_of_getLast? hlast)
    have hsame : last = (name, value) :=
      List.inj_on_of_nodup_map hnames hmem h (of_decide_eq_true hname)
    rw [hsame]
    rfl

theorem named_setMember (members : List (String × Value)) :
    named name (setMember name value members) = [(name, value)] := by
  induction members with
  | nil => simp [setMember, named]
  | cons member rest ih =>
    rw [setMember]
    split
    · simp [named]
    · next hne => rwa [named, List.filter_cons_of_neg (by simpa using hne)]

theorem named_setMember_of_ne (hne : other ≠ name) (members : List (String × Value)) :
    named other (setMember name value members) = named other members := by
  induction members with
  | nil => simp [setMember, named, hne.symm]
  | cons member rest ih =>
    rw [setMember]
    split
    · next hname =>
      have hother : ∀ member : String × Value,
          (decide (member.1 = other) && !decide (member.1 = name)) =
            decide (member.1 = other) := by
        intro member
        by_cases h : member.1 = other <;> simp [h, hne]
      simp [named, hname, hne.symm, List.filter_filter, hother]
    · simp only [named, List.filter_cons] at ih ⊢
      rw [ih]

theorem mem_setMember {member : String × Value} (h : member ∈ setMember name value members) :
    member = (name, value) ∨ member ∈ members := by
  induction members with
  | nil => exact Or.inl (List.mem_singleton.1 h)
  | cons first rest ih =>
    rw [setMember] at h
    split at h
    · obtain h | h := List.mem_cons.1 h
      · exact Or.inl h
      · exact Or.inr (List.mem_cons_of_mem _ (List.mem_of_mem_filter h))
    · obtain h | h := List.mem_cons.1 h
      · exact Or.inr (h ▸ List.mem_cons_self)
      · exact (ih h).imp_right (List.mem_cons_of_mem _)

/-! ## Building and indexing -/

/-- The members of a value, with the one that counts for each name. -/
def entries : Value → List (String × Value)
  | object members =>
    (members.map Prod.fst).dedup.map fun name => (name, (object members).member name)
  | _ => []

theorem entries_object (hnames : (members.map Prod.fst).Nodup) :
    entries (object members) = members := by
  rw [entries, hnames.dedup, List.map_map]
  refine (List.map_congr_left fun member hmember => ?_).trans (List.map_id members)
  exact Prod.ext rfl (member_object_of_mem hnames hmember)

end Value

theorem buildLaws_standard : standard.BuildLaws where
  isArray_array _ := rfl
  items_array _ := rfl
  isObject_newObject := rfl
  isObject_set {name value object} _ := by cases object <;> rfl
  member_set {name value object} h := by
    obtain ⟨members, rfl⟩ := Value.exists_eq_object_of_isObject h
    change (Value.object (Value.setMember name value members)).member name = value
    rw [Value.member_object, Value.named_setMember]
    rfl
  member_set_of_ne {name other value object} h hne := by
    obtain ⟨members, rfl⟩ := Value.exists_eq_object_of_isObject h
    change (Value.object (Value.setMember name value members)).member other =
      (Value.object members).member other
    rw [Value.member_object, Value.named_setMember_of_ne hne, ← Value.member_object]
  word32?_ofWord32 number := by
    have hlt : number.toNat < UInt32.size := number.toNat_lt
    change (Value.ofNat number.toNat).word32? = some number
    simp [Value.ofNat, Value.word32?, Value.below?, hlt]
  word64?_ofWord64 {number} h := if_pos h
  text?_ofText _ := rfl
  flag?_ofFlag _ := rfl

theorem indexLaws_standard : standard.IndexLaws Value.entries where
  member_of_mem {name member value} h := by
    cases value with
    | object members =>
      obtain ⟨other, -, hother⟩ := List.mem_map.1 h
      cases hother
      rfl
    | _ => cases h
  member_of_not_mem {name value} h := by
    cases value with
    | object members =>
      have hnames : name ∉ members.map Prod.fst := by
        simpa [Value.entries, Function.comp_def] using h
      have hnone : Value.named name members = [] := by
        rw [Value.named, List.filter_eq_nil_iff]
        intro member hmember hname
        exact hnames (List.mem_map.2 ⟨member, hmember, of_decide_eq_true hname⟩)
      change (Value.object members).member name = .null
      rw [Value.member_object, hnone]
      rfl
    | _ => rfl

/-! ## Texts -/

variable {levels : Nat}

theorem fits_set {name : String} {value object : Value} (hobject : object.Fits (levels + 1))
    (hvalue : value.Fits levels) : (standard.set name value object).Fits (levels + 1) := by
  -- What is no object becomes one.
  have hnew : (Value.object [(name, value)]).Fits (levels + 1) :=
    .object (List.forall_mem_singleton.2 hvalue)
  cases hobject with
  | @object _ members h =>
    refine @Value.Fits.object _ (Value.setMember name value members) fun member hmember => ?_
    obtain rfl | hmember := Value.mem_setMember hmember
    · exact hvalue
    · exact h member hmember
  | _ => exact hnew

theorem fits_setAll {members : List (String × Value)} {object : Value}
    (hobject : object.Fits (levels + 1)) (h : ∀ member ∈ members, member.2.Fits levels) :
    (standard.setAll members object).Fits (levels + 1) := by
  induction members generalizing object with
  | nil => exact hobject
  | cons member rest ih =>
    rw [List.forall_mem_cons] at h
    exact ih (fits_set hobject h.1) h.2

theorem fits_of_written {value : Value} (h : standard.Written levels value) :
    value.Fits levels := by
  induction h with
  | null => exact .null
  | word32 number => exact .number (Nat.lt_trans number.toNat_lt (by decide))
  | word64 h => exact .number h
  | text => exact .string
  | flag => exact .bool
  | array _ ih => exact .array ih
  | object _ ih => exact fits_setAll (.object (List.forall_mem_nil _)) ih

theorem textLaws_standard : standard.TextLaws where
  parse_write h := parse_write (fits_of_written h) (by decide)

end Gatework.Json
