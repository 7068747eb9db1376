import Gatework.Proofs.Expansion.Change
import Mathlib.Data.List.Perm.Subperm

/-!
# The numbers of wires

As long as there are fewer wires than numbers, the wires of a draft have the
numbers from one on in the order in which they came.

There are five groups.

* Numbers of 32 bits that are given out one after the other (`numbers_next`), as those of
  wires, gates and invocations are.
* The wires of an arena that have a description, in order.  An expansion gives one
  to the wires of names that are not bound.
* `Draft.Numbered` says that the numbers are used in order.
* A new wire of a numbered draft comes last, and so do the outputs of a new gate.
* `Reaches.numbered` is the result for all drafts that changes lead to.
-/

namespace Gatework

/-! ## Numbers in order -/

/-- After some numbers from one on, latest first, comes the next one. -/
theorem numbers_next {last : UInt32} {count : Nat} (hlast : last.toNat = count)
    (hsmall : count + 1 < UInt32.size) : (last + 1).toNat = count + 1 ∧
      (last + 1).toNat :: (List.range' 1 count).reverse = (List.range' 1 (count + 1)).reverse := by
  have hnext : (last + 1).toNat = (last.toNat + 1) % 2 ^ 32 := UInt32.toNat_add ..
  have hsmall' : count + 1 < 2 ^ 32 := hsmall
  have hnumber : (last + 1).toNat = count + 1 := by omega
  refine ⟨hnumber, ?_⟩
  rw [hnumber, List.range'_concat, List.reverse_append]
  simp [Nat.add_comm]

/-! ## Declared wires -/

namespace Arena

/-- The wires that have a description, in order. -/
def declared (a : Arena) : List WireId :=
  (a.wires.filter fun wire => wire.desc.isSome).map Wire.id

theorem mem_ids_of_mem_declared {id : WireId} {a : Arena} (h : id ∈ a.declared) : id ∈ a.ids := by
  obtain ⟨wire, hwire, rfl⟩ := List.mem_map.1 h
  exact List.mem_map_of_mem (List.mem_reverse.1 (List.mem_filter.1 hwire).1)

theorem declared_adjust {id : WireId} {f : Wire → Wire} (keeps) (a : Arena)
    (hdesc : ∀ wire, (f wire).desc = wire.desc) : (a.adjust id f keeps).declared = a.declared := by
  rw [declared, declared, wires_adjust, List.filter_map, List.map_map]
  have hfilter : ((fun wire : Wire => wire.desc.isSome) ∘
      fun wire => if wire.id = id then f wire else wire) = fun wire => wire.desc.isSome := by
    funext wire
    simp only [Function.comp_apply]
    split
    · rw [hdesc]
    · rfl
  rw [hfilter]
  refine List.map_congr_left fun wire _ => ?_
  simp only [Function.comp_apply]
  split
  · next hid => rw [keeps wire hid, hid]
  · rfl

@[simp] theorem declared_connect (gate : Gate) (a : Arena) :
    (a.connect gate).declared = a.declared :=
  connect_eq (fun _ _ a => declared_adjust _ a fun _ => rfl)
    (fun _ _ a => declared_adjust _ a fun _ => rfl) gate a

theorem length_ids (a : Arena) : a.ids.length = a.size := List.length_map ..

theorem size_le_of_subset {a b : Arena} (h : ∀ id ∈ a.ids, id ∈ b.ids) : a.size ≤ b.size := by
  rw [← length_ids, ← length_ids]
  exact (List.subperm_of_subset a.nodup h).length_le

end Arena

namespace Draft

variable {q : Node → Bool} {limit : UInt64} {d d' : Draft}

/-! ## Numbered drafts -/

/-- A draft whose wires have the numbers from one on, the latest wire the last
number. -/
structure Numbered (d : Draft) : Prop where
  last : d.lastWire.toNat = d.wires.size
  numbers : d.wires.ids.map (fun id => id.number.toNat) = (List.range' 1 d.wires.size).reverse

theorem numbered_empty : Numbered empty := ⟨rfl, rfl⟩

namespace Numbered

theorem number_le (h : d.Numbered) {id : WireId} (hid : id ∈ d.wires.ids) :
    0 < id.number.toNat ∧ id.number.toNat ≤ d.wires.size := by
  have hmem : id.number.toNat ∈ (List.range' 1 d.wires.size).reverse := by
    rw [← h.numbers]
    exact List.mem_map_of_mem hid
  rw [List.mem_reverse, List.mem_range'_1] at hmem
  omega

/-- Later wires have higher numbers. -/
theorem number_lt (h : d.Numbered) {later earlier : List WireId}
    (hids : d.wires.ids = later ++ earlier) {a b : WireId} (ha : a ∈ earlier) (hb : b ∈ later) :
    a.number.toNat < b.number.toNat := by
  have hsorted : (d.wires.ids.map fun id => id.number.toNat).Pairwise (· > ·) := by
    rw [h.numbers, List.pairwise_reverse]
    exact List.pairwise_lt_range' ..
  rw [hids, List.pairwise_map, List.pairwise_append] at hsorted
  exact hsorted.2.2 b hb a ha

/-! ## New wires -/

/-- The next number is not in use. -/
theorem find?_next (h : d.Numbered) : d.wires.find? ⟨d.lastWire + 1⟩ = none := by
  rw [Arena.find?_eq_none]
  intro hid
  have hle := h.number_le hid
  have hlast := h.last
  have hnext : (d.lastWire + 1).toNat = (d.lastWire.toNat + 1) % 2 ^ 32 := UInt32.toNat_add ..
  rw [hnext] at hle
  have hbound : d.lastWire.toNat < 2 ^ 32 := d.lastWire.toNat_lt
  omega

variable {desc : Option String}

theorem wires_newWire (h : d.Numbered) (desc : Option String) :
    (d.newWire desc).2.wires.wires = d.wires.wires ++ [.fresh (d.newWire desc).1 desc] :=
  Arena.wires_insert_of_find?_eq_none h.find?_next

theorem ids_newWire (h : d.Numbered) (desc : Option String) :
    (d.newWire desc).2.wires.ids = (d.newWire desc).1 :: d.wires.ids := by
  rw [Draft.ids_newWire, if_neg]
  exact Arena.find?_eq_none.1 h.find?_next

theorem declared_newWire (h : d.Numbered) (desc : Option String) :
    (d.newWire desc).2.wires.declared =
      d.wires.declared ++ if desc.isSome then [(d.newWire desc).1] else [] := by
  rw [Arena.declared, h.wires_newWire, List.filter_append, List.map_append]
  congr 1
  cases desc <;> rfl

theorem newWire (h : d.Numbered) (hsmall : (d.newWire desc).2.wires.size < UInt32.size) :
    (d.newWire desc).2.Numbered := by
  have hsize : (d.newWire desc).2.wires.size = d.wires.size + 1 := by
    rw [← Arena.length_ids, h.ids_newWire, List.length_cons, Arena.length_ids]
  obtain ⟨hlast, hnumbers⟩ := numbers_next h.last (hsize ▸ hsmall)
  constructor
  · rw [hsize]
    exact hlast
  · rw [h.ids_newWire, List.map_cons, h.numbers, hsize]
    exact hnumbers

/-- New wires come last, and none of them has a description. -/
theorem newWires {count : Nat} (h : d.Numbered)
    (hsmall : (d.newWires count).2.wires.size < UInt32.size) :
    (d.newWires count).2.Numbered ∧
      (d.newWires count).2.wires.ids = (d.newWires count).1.reverse ++ d.wires.ids ∧
      (d.newWires count).2.wires.declared = d.wires.declared := by
  induction count generalizing d with
  | zero => exact ⟨h, rfl, rfl⟩
  | succ count ih =>
    have hsize : (d.newWire none).2.wires.size < UInt32.size := by
      have hle := Arena.size_le_of_subset ((d.newWire none).2.mem_ids_newWires count).2
      exact Nat.lt_of_le_of_lt hle hsmall
    obtain ⟨hnumbered, hids, hdeclared⟩ := ih (h.newWire hsize) hsmall
    refine ⟨hnumbered, ?_, ?_⟩
    · show ((d.newWire none).2.newWires count).2.wires.ids = _
      have hfirst : (d.newWires (count + 1)).1 =
          (d.newWire none).1 :: ((d.newWire none).2.newWires count).1 := rfl
      rw [hids, h.ids_newWire, hfirst, List.reverse_cons, List.append_assoc]
      rfl
    · show ((d.newWire none).2.newWires count).2.wires.declared = _
      rw [hdeclared, h.declared_newWire]
      exact List.append_nil _

/-- So do the outputs of a new gate. -/
theorem place {kind : GateKind} {label : String} {inputs : List WireId} {count : Nat}
    {context : ContextId} (h : d.Numbered)
    (hsmall : (d.place kind label inputs count context).2.wires.size < UInt32.size) :
    (d.place kind label inputs count context).2.Numbered ∧
      (d.place kind label inputs count context).2.wires.ids =
        (d.place kind label inputs count context).1.reverse ++ d.wires.ids ∧
      (d.place kind label inputs count context).2.wires.declared = d.wires.declared := by
  obtain ⟨gate, hgate⟩ : ∃ gate, (d.place kind label inputs count context).2.wires =
      (d.newWires count).2.wires.connect gate := ⟨_, rfl⟩
  have hids : (d.place kind label inputs count context).2.wires.ids =
      (d.newWires count).2.wires.ids := by rw [hgate, Arena.ids_connect]
  have hsize : (d.place kind label inputs count context).2.wires.size =
      (d.newWires count).2.wires.size := by
    rw [← Arena.length_ids, hids, Arena.length_ids]
  obtain ⟨hnumbered, hgrown, hdeclared⟩ := h.newWires (hsize ▸ hsmall)
  refine ⟨⟨?_, ?_⟩, hids.trans hgrown, ?_⟩
  · rw [hsize]
    exact hnumbered.last
  · rw [hids, hsize]
    exact hnumbered.numbers
  · rw [hgate, Arena.declared_connect, hdeclared]

end Numbered

/-! ## Numbers after changes -/

theorem Reaches.size_le (h : Reaches q limit d d') : d.wires.size ≤ d'.wires.size :=
  Arena.size_le_of_subset h.mem_ids

theorem Change.numbered (h : Change q limit d d') (hd : d.Numbered)
    (hsmall : d'.wires.size < UInt32.size) : d'.Numbered := by
  rcases h.circuit_cases with ⟨_, _, _, _, _, -, rfl⟩ | ⟨_, rfl⟩ | ⟨name, wire, -, rfl⟩ | hsame
  · exact (hd.place hsmall).1
  · obtain ⟨hlast, hnumbers⟩ := hd.newWire hsmall
    exact ⟨hlast, hnumbers⟩
  · obtain ⟨_, _, _, _, heq⟩ := d.assign_eq name wire
    rw [heq]
    exact ⟨hd.last, hd.numbers⟩
  · constructor
    · rw [hsame.wires, hsame.lastWire, hd.last]
    · rw [hsame.wires, hd.numbers]

/-- With fewer wires than numbers, changes number the wires in order. -/
theorem Reaches.numbered (h : Reaches q limit empty d) (hsmall : d.wires.size < UInt32.size) :
    d.Numbered := by
  induction h with
  | refl => exact numbered_empty
  | tail _ hchange ih =>
    have hle := (Reaches.step hchange).size_le
    exact hchange.numbered (ih (by omega)) hsmall

end Draft

end Gatework
