import Gatework.Netlist.Id

/-!
# Wires and arenas

An arena holds the wires of a netlist in the order in which they came, one wire
for each identifier.

There are three groups.

* `Wire` is a signal.
* `Arena` is a list of wires whose identifiers differ, with `find?`, `insert`
  and `adjust`.  It keeps the latest wire in front, where a new one is put;
  `wires` is the list in order.  A wire of a new identifier comes last, and one
  whose identifier is there replaces the wire in its old place.  Adjusting a wire
  changes what is found under its identifier only (`find?_adjust`).
* The signals of an arena: `isPowered`, `setPowered`, and `levels`, the view
  that tells whether a signal has changed.
-/

namespace Gatework

/-! ## Wires -/

/-- A signal that gates share by its identifier. -/
structure Wire where
  id : WireId
  desc : Option String
  /-- The gate that first drove the wire. -/
  start : Option GateId
  /-- The gate that last took the wire as an input. -/
  stop : Option GateId
  powered : Bool
deriving DecidableEq

namespace Wire

/-- An unpowered wire that no gate mentions. -/
def fresh (id : WireId) (desc : Option String) : Wire := ⟨id, desc, none, none, false⟩

/-- The description of the wire of a name that is used before it is assigned. -/
def implicitDesc (name : String) : String := s!"for implicitly declared variable {name}"

end Wire

/-! ## Arenas -/

/-- The wires of a netlist.  They are kept latest first, so that a new wire and
those that came shortly before are at hand. -/
structure Arena where
  latest : List Wire
  nodup : (latest.map Wire.id).Nodup

namespace Arena

/-- The wires in the order in which they came. -/
def wires (a : Arena) : List Wire := a.latest.reverse

/-- The identifiers of the wires, latest first. -/
def ids (a : Arena) : List WireId := a.latest.map Wire.id

/-- The arena without wires. -/
def empty : Arena := ⟨[], List.nodup_nil⟩

theorem eq_of_latest_eq {a b : Arena} (h : a.latest = b.latest) : a = b := by
  cases a
  cases b
  simp_all

/-- The number of wires. -/
def size (a : Arena) : Nat := a.latest.length

/-- The wire of an identifier. -/
def find? (id : WireId) (a : Arena) : Option Wire := a.latest.find? fun wire => wire.id == id

theorem find?_eq_none {id : WireId} {a : Arena} : a.find? id = none ↔ id ∉ a.ids := by
  simp [find?, ids]

/-- A wire is found under its identifier. -/
theorem find?_eq_some_iff {id : WireId} {wire : Wire} {a : Arena} :
    a.find? id = some wire ↔ wire ∈ a.latest ∧ wire.id = id := by
  constructor
  · intro h
    exact ⟨List.mem_of_find?_eq_some h, by simpa using List.find?_some h⟩
  · rintro ⟨hmem, rfl⟩
    rw [find?]
    obtain ⟨latest, nodup⟩ := a
    induction latest with
    | nil => simp at hmem
    | cons first rest ih =>
      rw [List.map_cons, List.nodup_cons] at nodup
      rcases List.mem_cons.1 hmem with rfl | hrest
      · simp
      · have hne : first.id ≠ wire.id := fun e => nodup.1 (e ▸ List.mem_map_of_mem hrest)
        rw [List.find?_cons_of_neg (by simpa using hne)]
        exact ih nodup.2 hrest

/-- The wires with the one of an identifier changed. -/
def adjustWires (id : WireId) (f : Wire → Wire) : List Wire → List Wire
  | [] => []
  | wire :: rest => if wire.id = id then f wire :: rest else wire :: adjustWires id f rest

theorem map_id_adjustWires {id : WireId} {f : Wire → Wire}
    (keeps : ∀ wire, wire.id = id → (f wire).id = id) (wires : List Wire) :
    (adjustWires id f wires).map Wire.id = wires.map Wire.id := by
  induction wires with
  | nil => rfl
  | cons wire rest ih =>
    rw [adjustWires]
    split
    · next h => simp [keeps wire h, h]
    · simp [ih]

/-- The arena in which the wire of an identifier is changed, which keeps its
identifier. -/
def adjust (id : WireId) (f : Wire → Wire) (keeps : ∀ wire, wire.id = id → (f wire).id = id)
    (a : Arena) : Arena where
  latest := adjustWires id f a.latest
  nodup := by
    rw [map_id_adjustWires keeps]
    exact a.nodup

/-- The arena with a wire, in the place of the wire of its identifier or else at
the end. -/
def insert (wire : Wire) (a : Arena) : Arena :=
  if h : a.find? wire.id = none then
    ⟨wire :: a.latest, List.nodup_cons.2 ⟨find?_eq_none.1 h, a.nodup⟩⟩
  else
    a.adjust wire.id (fun _ => wire) fun _ _ => rfl

@[simp] theorem ids_adjust (id : WireId) (f : Wire → Wire) (keeps) (a : Arena) :
    (a.adjust id f keeps).ids = a.ids :=
  map_id_adjustWires keeps a.latest

theorem find?_adjustWires {id : WireId} {f : Wire → Wire}
    (keeps : ∀ wire, wire.id = id → (f wire).id = id) (other : WireId) (wires : List Wire) :
    (adjustWires id f wires).find? (fun wire => wire.id == other) =
      if other = id then (wires.find? fun wire => wire.id == other).map f
      else wires.find? fun wire => wire.id == other := by
  induction wires with
  | nil => simp [adjustWires]
  | cons wire rest ih =>
    by_cases h : wire.id = id
    · by_cases ho : other = id
      · simp [adjustWires, h, ho, keeps wire h]
      · have hne : id ≠ other := fun e => ho e.symm
        simp [adjustWires, h, ho, keeps wire h, hne]
    · rw [adjustWires, if_neg h, List.find?_cons, List.find?_cons, ih]
      by_cases hw : wire.id = other
      · have ho : other ≠ id := fun e => h (hw.trans e)
        simp [hw, ho]
      · simp only [beq_eq_false_iff_ne.2 hw]

/-- Adjusting a wire changes what is found under its identifier, and nothing
else. -/
theorem find?_adjust (id : WireId) (f : Wire → Wire) (keeps) (other : WireId) (a : Arena) :
    (a.adjust id f keeps).find? other =
      if other = id then (a.find? other).map f else a.find? other :=
  find?_adjustWires keeps other a.latest

/-- Changing one of several wires changes each to itself or to the new one. -/
theorem adjustWires_eq_map {id : WireId} {f : Wire → Wire} {wires : List Wire}
    (nodup : (wires.map Wire.id).Nodup) :
    adjustWires id f wires = wires.map fun wire => if wire.id = id then f wire else wire := by
  induction wires with
  | nil => rfl
  | cons wire rest ih =>
    rw [List.map_cons, List.nodup_cons] at nodup
    rw [adjustWires, List.map_cons]
    split
    · next h =>
      have others : ∀ other ∈ rest, (if other.id = id then f other else other) = other := by
        intro other hmem
        rw [if_neg]
        rintro rfl
        exact nodup.1 (h ▸ List.mem_map_of_mem hmem)
      rw [List.map_congr_left others, List.map_id']
    · rw [ih nodup.2]

theorem latest_adjust (id : WireId) (f : Wire → Wire) (keeps) (a : Arena) :
    (a.adjust id f keeps).latest =
      a.latest.map fun wire => if wire.id = id then f wire else wire :=
  adjustWires_eq_map a.nodup

/-- Adjusting a wire keeps the others and the order. -/
theorem wires_adjust (id : WireId) (f : Wire → Wire) (keeps) (a : Arena) :
    (a.adjust id f keeps).wires =
      a.wires.map fun wire => if wire.id = id then f wire else wire := by
  simp [wires, latest_adjust]

/-- A wire of a new identifier comes last. -/
theorem wires_insert_of_find?_eq_none {wire : Wire} {a : Arena}
    (h : a.find? wire.id = none) : (a.insert wire).wires = a.wires ++ [wire] := by
  simp [insert, h, wires]

/-- The arena of a list of wires, of which later ones replace earlier ones. -/
def ofList (wires : List Wire) : Arena := wires.foldl (fun a wire => a.insert wire) empty

/-! ## Signals -/

/-- Whether a wire is there and powered. -/
def isPowered (a : Arena) (id : WireId) : Bool := (a.find? id).any Wire.powered

/-- The arena in which a wire is powered or not. -/
def setPowered (id : WireId) (powered : Bool) (a : Arena) : Arena :=
  a.adjust id (fun wire => { wire with powered }) fun _ h => h

theorem isPowered_setPowered (id : WireId) (powered : Bool) (a : Arena) (other : WireId) :
    (a.setPowered id powered).isPowered other =
      if other = id then (a.find? other).isSome && powered else a.isPowered other := by
  simp only [isPowered, setPowered, find?_adjust]
  split <;> cases a.find? other <;> simp

/-- The arena in which a gate is the last one that took a wire. -/
def setStop (id : WireId) (gate : GateId) (a : Arena) : Arena :=
  a.adjust id (fun wire => { wire with stop := some gate }) fun _ h => h

/-- The arena in which a gate is the first one that drove a wire, unless another
was. -/
def setStart (id : WireId) (gate : GateId) (a : Arena) : Arena :=
  a.adjust id (fun wire => { wire with start := wire.start.or (some gate) }) fun _ h => h

/-- The signals of all wires, in order. -/
def levels (a : Arena) : List (WireId × Bool) := a.wires.map fun wire => (wire.id, wire.powered)

end Arena

end Gatework
