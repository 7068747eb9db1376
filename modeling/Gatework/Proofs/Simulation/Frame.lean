import Gatework.Proofs.Simulation.Equations

/-!
# What a simulation leaves alone

A simulation changes the signals of the wires that gates drive, and the states of lamps and
flip-flops.  Inputs that are set from outside, the states of switches, and all that is not a
signal or a state stay as they were.

There are three groups.

* `Gate.Kept`, `Wire.Kept` and `Netlist.Keeps` say what may differ after a simulation.  A wave,
  and a component that is not known, drive nothing, so a wire that only such components list as
  an output keeps its signal.
* Circuits.  There is a last round of a simulation (`exists_last_round`).  A wire that no gate
  drives keeps its signal in all rounds, and one round is enough to give a flip-flop a state of
  two digits.
* Netlists.  `keeps_simulate` is the result.
-/

namespace Gatework

/-! ## What may differ -/

/-- Whether a gate is a component that drives nothing. -/
def Gate.IsIdle (gate : Gate) : Prop :=
  gate.kind = .builtin ∧ (gate.builtin? = some .wave ∨ gate.builtin? = none)

/-- The gate as it was, but for the state of a lamp or a flip-flop. -/
structure Gate.Kept (gate gate' : Gate) : Prop where
  rest : gate' = { gate with state := gate'.state }
  state : gate.builtin? ≠ some .led → gate.builtin? ≠ some .tFlipFlop → gate'.state = gate.state

/-- The wire as it was, but for its signal, which only a gate that lists the wire as an output
may change. -/
structure Wire.Kept (gates : List Gate) (wire wire' : Wire) : Prop where
  rest : wire' = { wire with powered := wire'.powered }
  powered : (∀ gate ∈ gates, wire.id ∈ gate.outputs → gate.IsIdle) → wire'.powered = wire.powered

/-- The netlist as it was, but for the signals of driven wires and the states of lamps and
flip-flops. -/
structure Netlist.Keeps (n n' : Netlist) : Prop where
  gates : List.Forall₂ Gate.Kept n.gates n'.gates
  wires : List.Forall₂ (Wire.Kept n.gates) n.wires.wires n'.wires.wires
  contexts : n'.contexts = n.contexts
  outputs : n'.outputs = n.outputs

namespace Gate

theorem driven_of_isIdle {gate : Gate} (h : gate.IsIdle) : gate.driven = [] := by
  have hbehaviour : gate.behaviour = .idle := by
    rcases h with ⟨hkind, hname | hname⟩ <;> simp [behaviour, hkind, hname]
  simp [driven, react, hbehaviour, Behaviour.react, Pins.driving]

theorem remembers_eq_false {gate : Gate} (hled : gate.builtin? ≠ some .led)
    (hflipFlop : gate.builtin? ≠ some .tFlipFlop) : gate.behaviour.remembers = false := by
  unfold behaviour
  split <;> try rfl
  split <;> first | rfl | contradiction

theorem behaviour_of_builtin? {gate : Gate} (h : gate.builtin? = some .tFlipFlop) :
    gate.behaviour = .flipFlop := by
  have hkind : gate.kind = .builtin := by
    unfold builtin? at h
    split at h
    · assumption
    · exact absurd h nofun
  simp [behaviour, hkind, h]

theorem SameUpToMemory.kept {gate gate' : Gate} (h : gate.SameUpToMemory gate') :
    gate.Kept gate' where
  rest := by
    obtain ⟨hbare, -⟩ := h
    cases gate
    cases gate'
    simp only [bare, mk.injEq] at hbare ⊢
    simp only [hbare, and_self]
  state := fun hled hflipFlop => h.2 (remembers_eq_false hled hflipFlop)

end Gate

namespace Arena

theorem isPowered_of_mem {a : Arena} {wire : Wire} (h : wire ∈ a.wires) :
    a.isPowered wire.id = wire.powered := by
  have hfind : a.find? wire.id = some wire :=
    find?_eq_some_iff.2 ⟨List.mem_reverse.1 h, rfl⟩
  rw [isPowered, hfind]
  rfl

theorem wires_withSignals (signals : WireId → Bool) (a : Arena) :
    (a.withSignals signals).wires =
      a.wires.map fun wire => { wire with powered := signals wire.id } :=
  List.map_reverse.symm

/-- Arenas that differ in their signals at most differ in the wires whose signals differ. -/
theorem forall₂_kept {a b : Arena} {gates : List Gate} (hdark : b.dark = a.dark)
    (h : ∀ id, (∀ gate ∈ gates, id ∈ gate.outputs → gate.IsIdle) →
      b.isPowered id = a.isPowered id) :
    List.Forall₂ (Wire.Kept gates) a.wires b.wires := by
  have hb : b = a.withSignals b.isPowered := by
    calc b = b.dark.withSignals b.isPowered := by
          rw [dark, withSignals_withSignals, withSignals_isPowered]
      _ = a.withSignals b.isPowered := by rw [hdark, dark, withSignals_withSignals]
  rw [hb, wires_withSignals, List.forall₂_map_right_iff, List.forall₂_same]
  intro wire hwire
  exact ⟨rfl, fun hidle => (h wire.id hidle).trans (isPowered_of_mem hwire)⟩

end Arena

/-! ## Circuits -/

namespace Circuit

/-- A simulation is as many rounds as it counts, one at least.  If it does not settle, then it has
used all rounds that it may have, and the last one has changed the wires. -/
theorem exists_last_round (c : Circuit) :
    ∃ k < c.roundLimit, c.simulate.1.rounds = k + 1 ∧ c.simulate.2 = (round^[k] c).round ∧
      (c.simulate.1.converged = false → k + 1 = c.roundLimit ∧ ¬AtRest (round^[k] c)) := by
  obtain ⟨last, hlast⟩ := Nat.exists_eq_add_of_lt c.roundLimit_pos
  rw [Nat.zero_add] at hlast
  unfold simulate
  rcases settle_cases 0 c.roundLimit c with ⟨k, hk, heq, -, -⟩ | ⟨heq, hnever⟩
  · rw [heq, Nat.zero_add]
    exact ⟨k, hk, rfl, rfl, nofun⟩
  · rw [heq, Nat.zero_add, hlast]
    exact ⟨last, Nat.lt_succ_self last, rfl, Function.iterate_succ_apply' round last c,
      fun _ => ⟨rfl, hnever last (hlast ▸ Nat.lt_succ_self last)⟩⟩

theorem isPowered_iterate_of_not_driven {c : Circuit} {id : WireId}
    (h : ∀ gate ∈ c.gates, id ∉ gate.driven) (k : Nat) :
    (round^[k] c).wires.isPowered id = c.wires.isPowered id := by
  induction k with
  | zero => rfl
  | succ k ih =>
    rw [Function.iterate_succ_apply', round_eq, isPowered_act_of_not_driven, ih]
    intro gate hgate
    obtain ⟨before, hbefore, hbare⟩ := exists_bare_eq_of_mem_iterate hgate
    rw [← Gate.driven_eq_of_bare_eq hbare]
    exact h before hbefore

/-- A flip-flop that has acted has noted its clock and its bit. -/
theorem state_act_of_flipFlop {gates : List Gate} {wires : Arena} {gate : Gate}
    (h : gate ∈ (act gates wires).gates) (hflipFlop : gate.behaviour = .flipFlop) :
    ∃ clock bit, gate.state = flipFlopState clock bit := by
  induction gates with
  | nil => exact absurd h List.not_mem_nil
  | cons first later ih =>
    rw [act_cons] at h
    rcases List.mem_cons.1 h with rfl | h
    · have hfirst : first.behaviour = .flipFlop := hflipFlop
      rw [Gate.react, hfirst]
      exact ⟨_, _, rfl⟩
    · exact ih h

end Circuit

/-! ## Netlists -/

namespace Netlist

theorem keeps_simulate_snd (n : Netlist) : n.Keeps n.simulate.2 := by
  obtain ⟨hwires, -, hgates⟩ := n.circuit.sameInputs_simulate
  obtain ⟨k, -, -, hlast, -⟩ := n.circuit.exists_last_round
  rw [← Function.iterate_succ_apply' Circuit.round] at hlast
  rw [simulate_eq]
  refine ⟨hgates.imp fun _ _ h => h.kept, Arena.forall₂_kept hwires fun id hidle => ?_, rfl, rfl⟩
  show n.circuit.simulate.2.wires.isPowered id = n.circuit.wires.isPowered id
  rw [hlast]
  refine Circuit.isPowered_iterate_of_not_driven (fun gate hgate hdriven => ?_) _
  rw [Gate.driven_of_isIdle (hidle gate hgate (Gate.mem_outputs_of_mem_driven hdriven))] at hdriven
  exact List.not_mem_nil hdriven

/-- A simulation changes nothing of a netlist but the signals of wires that gates list as outputs
and the states of lamps and flip-flops.  It leaves every flip-flop with a state of two digits.
It takes at least one round, and no more than the size of the netlist allows.  If it does not
settle, then it has taken all of these, and the wires have changed in the last one. -/
theorem keeps_simulate (n : Netlist) :
    n.Keeps n.simulate.2 ∧
    (∀ gate ∈ n.simulate.2.gates, gate.builtin? = some .tFlipFlop →
      ∃ clock bit : Bool, gate.state.toList = [Gate.digit clock, Gate.digit bit]) ∧
    1 ≤ n.simulate.1.rounds ∧
    n.simulate.1.rounds ≤ max 1 (5 * (n.wires.size + n.gates.length)) ∧
    (n.simulate.1.converged = false →
      n.simulate.1.rounds = max 1 (5 * (n.wires.size + n.gates.length)) ∧
      ∃ before : Circuit, before = Circuit.round^[n.simulate.1.rounds - 1] n.circuit ∧
        n.simulate.2.circuit = before.round ∧
        n.simulate.2.wires.levels ≠ before.wires.levels) := by
  obtain ⟨k, hk, hrounds, hlast, hopen⟩ := n.circuit.exists_last_round
  obtain ⟨before, hbefore⟩ : ∃ before, before = Circuit.round^[k] n.circuit := ⟨_, rfl⟩
  rw [← circuit_simulate, ← hbefore] at hlast
  rw [← hbefore, ← simulate_fst] at hopen
  rw [← simulate_fst] at hrounds
  have hgates : n.simulate.2.gates = before.round.gates := congrArg Circuit.gates hlast
  have hwires : n.simulate.2.wires = before.round.wires := congrArg Circuit.wires hlast
  rw [hrounds, Nat.add_sub_cancel]
  refine ⟨n.keeps_simulate_snd, fun gate hgate hname => ?_, Nat.succ_pos k, hk,
    fun hfails => ?_⟩
  · rw [hgates, Circuit.round_eq] at hgate
    obtain ⟨clock, bit, hstate⟩ :=
      Circuit.state_act_of_flipFlop hgate (Gate.behaviour_of_builtin? hname)
    exact ⟨clock, bit, by rw [hstate]; exact String.toList_ofList⟩
  · obtain ⟨hlimit, hmoves⟩ := hopen hfails
    have hdark : before.round.wires.dark = before.wires.dark := Circuit.dark_act _ _
    refine ⟨hlimit, before, hbefore, hlast, ?_⟩
    rw [hwires, Ne, Arena.levels_eq_iff hdark]
    exact hmoves

/-- A toggle that is on, a wave whose wire has been powered by hand, an inverter that feeds itself,
and a flip-flop that it clocks. -/
def humming : Netlist :=
  .ofParts
    [⟨⟨1⟩, .builtin, "toggle", [], [⟨1⟩], .root, "on"⟩,
      ⟨⟨2⟩, .builtin, "wave", [⟨3⟩], [⟨2⟩], .root, ""⟩,
      ⟨⟨3⟩, .negation, "", [⟨3⟩], [⟨3⟩], .root, ""⟩,
      ⟨⟨4⟩, .builtin, "tflipflop", [⟨3⟩, ⟨1⟩], [⟨4⟩], .root, ""⟩]
    [.fresh ⟨1⟩ none, ⟨⟨2⟩, none, none, none, true⟩, .fresh ⟨3⟩ none, .fresh ⟨4⟩ none]

/-- It takes all rounds and does not settle.  The toggle and the wave are as they were. -/
theorem keeps_simulate_humming :
    humming.simulate.1 = ⟨40, false⟩ ∧ humming.Keeps humming.simulate.2 ∧
      humming.simulate.2.gates.map Gate.state = ["on", "", "", "10"] ∧
      humming.simulate.2.wires.wires.map Wire.powered = [true, true, false, false] ∧
      ∃ before : Circuit, before = Circuit.round^[39] humming.circuit ∧
        humming.simulate.2.wires.levels ≠ before.wires.levels := by
  have hverdict : humming.simulate.1 = ⟨40, false⟩ := by
    rw [simulate_fst]
    decide +kernel
  obtain ⟨hkeeps, -, -, -, hopen⟩ := keeps_simulate humming
  obtain ⟨-, before, hbefore, -, hmoves⟩ := hopen (by rw [hverdict])
  rw [hverdict] at hbefore
  refine ⟨hverdict, hkeeps, ?_, ?_, before, hbefore, hmoves⟩ <;>
    · rw [simulate_eq]
      decide +kernel

end Netlist

end Gatework
