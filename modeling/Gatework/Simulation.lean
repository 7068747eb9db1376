import Gatework.Netlist

/-!
# Simulation

A simulation lets the gates of a netlist act round by round until a round leaves
every wire as it was, or a number of rounds has passed that is in proportion to
the size of the netlist.

There are four groups.

* `Behaviour` is what a gate does, whatever its wires are.  `Behaviour.react`
  says it for pins of any sort: the gate reads its input pins, and answers with
  its new state and the signals that it puts on its output pins.  Renaming the
  pins renames the answer (`react_map`).
* `Gate.react` is the reaction of a gate of a netlist, whose pins are wires.
* `Circuit` is the part of a netlist that changes, and `Circuit.round` lets every
  gate act once, the last gate first, each on the signals that the gates before
  it have left.  A gate that an earlier gate of the list drives thus acts on the
  signal of the round before.
* `Circuit.settle` repeats rounds, and `Circuit.simulate` settles a circuit.
-/

namespace Gatework

/-! ## Behaviours -/

/-- What a gate does, whatever its wires are. -/
inductive Behaviour
  | conj
  | disj
  | negation
  /-- Passes its input on. -/
  | relay
  | constant (powered : Bool)
  /-- Is on or off by its state. -/
  | switch
  | led
  | flipFlop
  /-- Does nothing of its own. -/
  | idle
deriving DecidableEq

/-- The pins of a gate. -/
structure Pins (α : Type) where
  inputs : List α
  outputs : List α

/-- An answer of a gate: its new state, and the signals that it puts on pins, in
the order in which it puts them. -/
structure Reaction (α : Type) where
  state : String
  drives : List (α × Bool)

variable {α β : Type}

/-- The pins under other names. -/
def Pins.map (f : α → β) (pins : Pins α) : Pins β := ⟨pins.inputs.map f, pins.outputs.map f⟩

/-- The answer with its pins under other names. -/
def Reaction.map (f : α → β) (reaction : Reaction α) : Reaction β :=
  ⟨reaction.state, reaction.drives.map fun drive => (f drive.1, drive.2)⟩

namespace Pins

/-- Whether an input is there and powered. -/
def reads (read : α → Bool) (pins : Pins α) (place : Nat) : Bool :=
  pins.inputs[place]?.any read

/-- The answer that keeps the state and puts signals on the outputs in their
order, as far as both go. -/
def driving (state : String) (pins : Pins α) (signals : List Bool) : Reaction α :=
  ⟨state, pins.outputs.zip signals⟩

theorem reads_map (f : α → β) (read : β → Bool) (pins : Pins α) (place : Nat) :
    (pins.map f).reads read place = pins.reads (read ∘ f) place := by
  simp only [reads, map, List.getElem?_map]
  cases pins.inputs[place]? <;> rfl

theorem driving_map (f : α → β) (state : String) (pins : Pins α) (signals : List Bool) :
    (pins.map f).driving state signals = (pins.driving state signals).map f := by
  simp [driving, map, Reaction.map, List.zip_map_left]

end Pins

/-- The state of a component that is on or off. -/
def switchState (on : Bool) : String := if on then "on" else "off"

/-- The state of a flip-flop: its clock in the last round and its bit. -/
def flipFlopState (clock bit : Bool) : String :=
  String.ofList [if clock then '1' else '0', if bit then '1' else '0']

/-- Whether a state has a one at a place. -/
def stateBit (state : String) (place : Nat) : Bool := state.toList[place]? == some '1'

/-- The bit of a flip-flop after a round.  Its inputs are the clock, the toggle,
the set and the reset; set wins over reset, and both win over a rising clock. -/
def flipFlopBit (read : α → Bool) (state : String) (pins : Pins α) : Bool :=
  let wasHigh := stateBit state 0
  let bit := stateBit state 1
  if pins.reads read 2 then true
  else if pins.reads read 3 then false
  else if pins.reads read 0 && !wasHigh && pins.reads read 1 then !bit
  else bit

/-- The answer to the signals on the pins.  A gate that computes from its inputs
does nothing without any. -/
def Behaviour.react (read : α → Bool) (state : String) (pins : Pins α) :
    Behaviour → Reaction α
  | .conj => pins.driving state (if pins.inputs.isEmpty then [] else [pins.inputs.all read])
  | .disj => pins.driving state (if pins.inputs.isEmpty then [] else [pins.inputs.any read])
  | .negation => pins.driving state (if pins.inputs.isEmpty then [] else [!pins.reads read 0])
  | .relay => pins.driving state (if pins.inputs.isEmpty then [] else [pins.reads read 0])
  | .constant powered => pins.driving state [powered]
  | .switch => ⟨state, pins.outputs.map fun pin => (pin, state == "on")⟩
  | .led => ⟨switchState (pins.reads read 0), []⟩
  | .flipFlop =>
    let bit := flipFlopBit read state pins
    pins.driving (flipFlopState (pins.reads read 0) bit) [bit, !bit]
  | .idle => pins.driving state []

/-- Renaming the pins renames the answer. -/
theorem Behaviour.react_map (f : α → β) (read : β → Bool) (state : String) (pins : Pins α)
    (behaviour : Behaviour) :
    behaviour.react read state (pins.map f) =
      (behaviour.react (read ∘ f) state pins).map f := by
  have empty : (pins.map f).inputs.isEmpty = pins.inputs.isEmpty := by
    cases h : pins.inputs <;> simp [Pins.map, h]
  have bit : flipFlopBit read state (pins.map f) = flipFlopBit (read ∘ f) state pins := by
    simp only [flipFlopBit, Pins.reads_map]
  cases behaviour <;> simp only [react, empty, bit, Pins.reads_map, Pins.driving_map]
  · simp [Pins.map, List.all_map]
  · simp [Pins.map, List.any_map]
  · simp [Pins.map, Reaction.map]
  · simp [Reaction.map]

/-! ## Gates -/

namespace Gate

/-- What a gate does.  A wave, and a component that is not known, do nothing. -/
def behaviour (gate : Gate) : Behaviour :=
  match gate.kind with
  | .conj => .conj
  | .disj => .disj
  | .negation => .negation
  | .source => .constant true
  | .ground => .constant false
  | .blockInput | .blockOutput => .relay
  | .builtin =>
    match gate.builtin? with
    | some .toggle | some .momentary => .switch
    | some .led => .led
    | some .tFlipFlop => .flipFlop
    | some .wave | none => .idle

/-- The wires of a gate. -/
def pins (gate : Gate) : Pins WireId := ⟨gate.inputs, gate.outputs⟩

/-- The answer of a gate to the signals on wires. -/
def react (read : WireId → Bool) (gate : Gate) : Reaction WireId :=
  gate.behaviour.react read gate.state gate.pins

end Gate

/-! ## One round -/

/-- The arena after signals have been put on wires. -/
def Arena.drive (drives : List (WireId × Bool)) (a : Arena) : Arena :=
  drives.foldl (fun a drive => a.setPowered drive.1 drive.2) a

/-- The part of a netlist that a simulation changes. -/
structure Circuit where
  gates : List Gate
  wires : Arena

namespace Circuit

/-- The signals and states after every gate has acted once, the last one
first. -/
def act : List Gate → Arena → Circuit
  | [], wires => ⟨[], wires⟩
  | gate :: later, wires =>
    let rest := act later wires
    let reaction := gate.react rest.wires.isPowered
    ⟨{ gate with state := reaction.state } :: rest.gates, rest.wires.drive reaction.drives⟩

/-- One round. -/
def round (c : Circuit) : Circuit := act c.gates c.wires

/-! ## Many rounds -/

/-- How a simulation ended: the number of its rounds, and whether the last one
left every wire as it was. -/
structure Verdict where
  rounds : Nat
  converged : Bool
deriving DecidableEq

/-- Repeats rounds after some that have passed, at most a further number of
times. -/
def settle (passed : Nat) : Nat → Circuit → Verdict × Circuit
  | 0, c => (⟨passed, false⟩, c)
  | more + 1, c =>
    let next := c.round
    if next.wires.levels = c.wires.levels then
      (⟨passed + 1, true⟩, next)
    else
      settle (passed + 1) more next

/-- The greatest number of rounds: five for each wire and gate, and at least
one. -/
def roundLimit (c : Circuit) : Nat := max 1 (5 * (c.wires.size + c.gates.length))

/-- Repeats rounds until the wires do not change. -/
def simulate (c : Circuit) : Verdict × Circuit := c.settle 0 c.roundLimit

end Circuit

end Gatework
