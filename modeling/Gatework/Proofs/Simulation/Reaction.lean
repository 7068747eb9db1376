import Gatework.Simulation

/-!
# Reactions of a gate

What a gate answers, apart from the signals that it answers to.  Nothing here
mentions an arena.

There are three groups.

* The pins that a gate drives do not depend on the signals or on its state.
  `Gate.driven` names them, and `Gate.bare` is the gate without its state.
* The answer depends on the signals of the input pins only (`react_congr`), and
  a gate that has just answered answers the same again (`react_again`).  The
  second fact is where the edge memory of a flip-flop matters: a clock that has
  been seen high does not rise again.
* Only lamps and flip-flops change their state (`state_react`).
-/

namespace Gatework

variable {α : Type}

/-! ## Driven pins -/

theorem Pins.map_fst_driving (state : String) (pins : Pins α) (signals : List Bool) :
    (pins.driving state signals).drives.map Prod.fst = pins.outputs.take signals.length := by
  obtain ⟨inputs, outputs⟩ := pins
  simp only [driving]
  induction outputs generalizing signals with
  | nil => simp
  | cons output outputs ih =>
    cases signals with
    | nil => simp
    | cons signal signals => simp [ih]

/-- A gate drives the same pins whatever it reads and remembers. -/
theorem Behaviour.map_fst_react (behaviour : Behaviour) (read read' : α → Bool)
    (state state' : String) (pins : Pins α) :
    (behaviour.react read state pins).drives.map Prod.fst =
      (behaviour.react read' state' pins).drives.map Prod.fst := by
  cases behaviour <;> simp only [react, Pins.map_fst_driving]
  case conj | disj | negation | relay => split <;> rfl
  case switch => simp
  all_goals rfl

/-- A gate drives output pins only. -/
theorem Behaviour.mem_outputs_of_mem_react {behaviour : Behaviour} {read : α → Bool}
    {state : String} {pins : Pins α} {pin : α}
    (h : pin ∈ (behaviour.react read state pins).drives.map Prod.fst) :
    pin ∈ pins.outputs := by
  cases behaviour <;> simp only [react, Pins.map_fst_driving] at h
  case switch => simpa using h
  case led => simp at h
  all_goals exact List.mem_of_mem_take h

/-- No output pin is driven twice, unless the gate lists it twice. -/
theorem Behaviour.nodup_map_fst_react (behaviour : Behaviour) (read : α → Bool)
    (state : String) (pins : Pins α) (h : pins.outputs.Nodup) :
    ((behaviour.react read state pins).drives.map Prod.fst).Nodup := by
  cases behaviour <;> simp only [react, Pins.map_fst_driving]
  case switch =>
    rw [List.map_map]
    exact (List.map_id' pins.outputs).symm ▸ h
  case led => exact List.nodup_nil
  all_goals exact h.sublist (List.take_sublist _ _)

/-! ## Equal answers -/

theorem Pins.reads_congr {pins : Pins α} {read read' : α → Bool}
    (h : ∀ pin ∈ pins.inputs, read pin = read' pin) (place : Nat) :
    pins.reads read place = pins.reads read' place := by
  unfold Pins.reads
  cases hpin : pins.inputs[place]? with
  | none => rfl
  | some pin => exact h pin (List.mem_of_getElem? hpin)

/-- An answer depends on the signals of the input pins only. -/
theorem Behaviour.react_congr (behaviour : Behaviour) {read read' : α → Bool} (pins : Pins α)
    (h : ∀ pin ∈ pins.inputs, read pin = read' pin) (state : String) :
    behaviour.react read state pins = behaviour.react read' state pins := by
  have hreads := Pins.reads_congr h
  have hmap : pins.inputs.map read = pins.inputs.map read' := List.map_congr_left h
  have hall : pins.inputs.all read = pins.inputs.all read' := by
    rw [← Function.id_comp read, ← List.all_map, hmap, List.all_map, Function.id_comp]
  have hany : pins.inputs.any read = pins.inputs.any read' := by
    rw [← Function.id_comp read, ← List.any_map, hmap, List.any_map, Function.id_comp]
  cases behaviour <;> simp only [react, flipFlopBit, hreads, hall, hany]

/-- The bits of the state of a flip-flop. -/
theorem stateBit_flipFlopState (clock bit : Bool) :
    stateBit (flipFlopState clock bit) 0 = clock ∧
      stateBit (flipFlopState clock bit) 1 = bit := by
  cases clock <;> cases bit <;> decide

/-- A flip-flop keeps its bit as long as its inputs stay.  Its clock is not seen
to rise again, since it remembers the level that it has seen. -/
theorem flipFlopBit_again (read : α → Bool) (state : String) (pins : Pins α) :
    flipFlopBit read
        (flipFlopState (pins.reads read 0) (flipFlopBit read state pins)) pins =
      flipFlopBit read state pins := by
  obtain ⟨hclock, hbit⟩ :=
    stateBit_flipFlopState (pins.reads read 0) (flipFlopBit read state pins)
  have hrise : (pins.reads read 0 && !pins.reads read 0) = false := by simp
  rw [flipFlopBit, hclock, hbit, hrise, Bool.false_and]
  cases hset : pins.reads read 2 with
  | true => simp [flipFlopBit, hset]
  | false =>
    cases hreset : pins.reads read 3 with
    | true => simp [flipFlopBit, hset, hreset]
    | false => simp

/-- A gate that has answered answers the same to the same signals. -/
theorem Behaviour.react_again (behaviour : Behaviour) (read : α → Bool) (state : String)
    (pins : Pins α) :
    behaviour.react read (behaviour.react read state pins).state pins =
      behaviour.react read state pins := by
  cases behaviour
  case flipFlop =>
    have hagain := flipFlopBit_again read state pins
    simp only [react, Pins.driving] at hagain ⊢
    rw [hagain]
  all_goals rfl

/-! ## States -/

/-- Lamps and flip-flops are the gates that remember. -/
def Behaviour.remembers : Behaviour → Bool
  | .led | .flipFlop => true
  | _ => false

/-- The other gates keep their state. -/
theorem Behaviour.state_react {behaviour : Behaviour} (h : behaviour.remembers = false)
    (read : α → Bool) (state : String) (pins : Pins α) :
    (behaviour.react read state pins).state = state := by
  cases behaviour
  case led | flipFlop => exact absurd h (by decide)
  all_goals rfl

/-! ## Gates of a netlist -/

namespace Gate

/-- The wires that a gate puts signals on. -/
def driven (gate : Gate) : List WireId := (gate.react fun _ => false).drives.map Prod.fst

/-- A gate without its state. -/
def bare (gate : Gate) : Gate := { gate with state := "" }

@[simp] theorem bare_withState (gate : Gate) (state : String) :
    bare { gate with state } = gate.bare := rfl

theorem map_fst_react (read : WireId → Bool) (gate : Gate) :
    (gate.react read).drives.map Prod.fst = gate.driven :=
  Behaviour.map_fst_react _ _ _ _ _ _

theorem mem_outputs_of_mem_driven {gate : Gate} {wire : WireId} (h : wire ∈ gate.driven) :
    wire ∈ gate.outputs :=
  Behaviour.mem_outputs_of_mem_react h

theorem nodup_driven {gate : Gate} (h : gate.outputs.Nodup) : gate.driven.Nodup :=
  Behaviour.nodup_map_fst_react _ _ _ gate.pins h

theorem driven_eq_of_bare_eq {g h : Gate} (hgh : g.bare = h.bare) : g.driven = h.driven := by
  have hbare : ∀ gate : Gate, gate.bare.driven = gate.driven := fun gate =>
    Behaviour.map_fst_react gate.behaviour _ _ _ _ gate.pins
  rw [← hbare g, hgh, hbare h]

theorem inputs_eq_of_bare_eq {g h : Gate} (hgh : g.bare = h.bare) : g.inputs = h.inputs := by
  show g.bare.inputs = h.bare.inputs
  rw [hgh]

theorem outputs_eq_of_bare_eq {g h : Gate} (hgh : g.bare = h.bare) : g.outputs = h.outputs := by
  show g.bare.outputs = h.bare.outputs
  rw [hgh]

theorem react_again (read : WireId → Bool) (gate : Gate) :
    Gate.react read { gate with state := (gate.react read).state } = gate.react read :=
  Behaviour.react_again gate.behaviour read gate.state gate.pins

/-- A gate that has answered to some signals gives the same answer to signals
that agree with them on its inputs. -/
theorem react_again_of_agree {read read' : WireId → Bool} (gate : Gate)
    (h : ∀ wire ∈ gate.inputs, read wire = read' wire) :
    Gate.react read' { gate with state := (gate.react read).state } = gate.react read := by
  have hagain := react_again read gate
  calc Gate.react read' { gate with state := (gate.react read).state }
      = Gate.react read { gate with state := (gate.react read).state } :=
        (Behaviour.react_congr gate.behaviour gate.pins h _).symm
    _ = gate.react read := hagain

end Gate

end Gatework
