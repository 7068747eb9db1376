import Gatework.Proofs.Simulation.Round

/-!
# Settled circuits are fixed points

A simulation stops when a round has left every wire as it was.  The states of the
gates are not looked at, and a wire may change and change back within a round.
Still the netlist that is left is a fixed point.

There are two groups.

* A round from the same signals, by gates that have just acted, repeats itself
  gate by gate (`act_act`).  No count of the drivers of a wire enters.
* Netlists.  `simulate_simulate_of_converged` is the result: simulating a settled
  netlist takes one round, settles, and changes nothing.
-/

namespace Gatework

/-! ## Circuits -/

namespace Circuit

/-- Gates that have acted on some wires do the same again on these wires. -/
theorem act_act (gates : List Gate) (wires : Arena) :
    act (act gates wires).gates wires = act gates wires := by
  induction gates with
  | nil => rfl
  | cons gate later ih =>
    -- the later gates repeat themselves, so the first gate reads the same signals
    rw [act_cons gate later wires, act_cons, ih, Gate.react_again]

/-- A round that has left the wires as they were leaves nothing for the next
one. -/
theorem round_round_of_atRest {c : Circuit} (h : AtRest c) : c.round.round = c.round := by
  have hwires : c.round.wires = c.wires := h
  rw [round_eq c.round, hwires, round_eq]
  exact act_act c.gates c.wires

theorem simulate_of_round_eq {c : Circuit} (h : c.round = c) :
    c.simulate = (⟨1, true⟩, c) := by
  obtain ⟨more, hmore⟩ := Nat.exists_eq_add_of_lt c.roundLimit_pos
  have hrest : AtRest c := congrArg Circuit.wires h
  have hstop := (settle_succ 0 more c).1 hrest
  rw [simulate, hmore, Nat.zero_add, hstop, h]

theorem simulate_simulate {c : Circuit} (h : c.simulate.1.converged = true) :
    c.simulate.2.simulate = (⟨1, true⟩, c.simulate.2) := by
  obtain ⟨k, hlast, hrest⟩ := exists_atRest_of_converged h
  rw [hlast]
  exact simulate_of_round_eq (round_round_of_atRest hrest)

end Circuit

/-! ## Netlists -/

namespace Netlist

theorem simulate_fst (n : Netlist) : n.simulate.1 = n.circuit.simulate.1 := by
  rw [simulate_eq]

theorem circuit_simulate (n : Netlist) : n.simulate.2.circuit = n.circuit.simulate.2 := by
  rw [simulate_eq]
  rfl

/-- Simulating a netlist that has settled takes one round, settles, and leaves
all of the netlist as it is. -/
theorem simulate_simulate_of_converged (n : Netlist) (h : n.simulate.1.converged = true) :
    n.simulate.2.simulate = (⟨1, true⟩, n.simulate.2) := by
  rw [simulate_fst] at h
  have hagain := Circuit.simulate_simulate h
  rw [← circuit_simulate] at hagain
  rw [simulate_eq n.simulate.2, hagain]
  rfl

/-- A wire that a source powers and a ground unpowers in every round, and a
flip-flop between them, whose clock it is. -/
def flickering : Netlist :=
  .ofParts
    [⟨⟨1⟩, .ground, "", [], [⟨1⟩], .root, ""⟩,
      ⟨⟨2⟩, .builtin, "tflipflop", [⟨1⟩, ⟨1⟩], [⟨2⟩], .root, ""⟩,
      ⟨⟨3⟩, .source, "", [], [⟨1⟩], .root, ""⟩]
    [.fresh ⟨1⟩ none, .fresh ⟨2⟩ none]

theorem simulate_simulate_flickering :
    flickering.simulate.1 = ⟨2, true⟩ ∧
      flickering.simulate.2.simulate = (⟨1, true⟩, flickering.simulate.2) := by
  have hverdict : flickering.simulate.1 = ⟨2, true⟩ := by
    rw [simulate_fst]
    decide
  exact ⟨hverdict, simulate_simulate_of_converged flickering (by rw [hverdict])⟩

end Netlist

end Gatework
