import Gatework.Proofs.Simulation.Forward

/-!
# Flip-flops from round to round

A flip-flop remembers the level of its clock and its bit.  It toggles in the round after the
one in which its clock has risen, and does not toggle again, since it has seen the new level
by then.

There are two groups.

* One round: what a flip-flop remembers of the wires that it reads (`Gate.stateBit_answering`),
  and that its first output shows the bit.
* Many rounds in which the clock changes once, and the reset with it
  (`Circuit.stateBit_gateAfter`).
-/

namespace Gatework

/-! ## One round -/

/-- A flip-flop that is not set toggles its bit when its clock rises while the toggle is high,
unless it is reset. -/
theorem flipFlopBit_of_unset {α : Type} {read : α → Bool} {state : String} {pins : Pins α}
    (hset : pins.reads read 2 = false) :
    flipFlopBit read state pins = (!pins.reads read 3 &&
      ((pins.reads read 0 && !stateBit state 0 && pins.reads read 1) ^^ stateBit state 1)) := by
  rw [flipFlopBit, hset]
  cases pins.reads read 3 with
  | true => rfl
  | false => cases pins.reads read 0 && !stateBit state 0 && pins.reads read 1 <;> simp

namespace Gate

variable {gate : Gate}

theorem react_flipFlop (h : gate.behaviour = .flipFlop) (read : WireId → Bool) :
    gate.react read =
      ⟨flipFlopState (gate.pins.reads read 0) (flipFlopBit read gate.state gate.pins),
        gate.outputs.zip [flipFlopBit read gate.state gate.pins,
          !flipFlopBit read gate.state gate.pins]⟩ := by
  rw [react, h]
  rfl

/-- What a flip-flop remembers after it has read some wires. -/
theorem stateBit_answering (h : gate.behaviour = .flipFlop) (wires : Arena) :
    stateBit (gate.answering wires.isPowered).state 0 = gate.input wires 0 ∧
      (gate.input wires 2 = false → stateBit (gate.answering wires.isPowered).state 1 =
        (!gate.input wires 3 && ((gate.input wires 0 && !stateBit gate.state 0 &&
          gate.input wires 1) ^^ stateBit gate.state 1))) := by
  rw [answering, react_flipFlop h]
  obtain ⟨hclock, hbit⟩ := stateBit_flipFlopState (gate.pins.reads wires.isPowered 0)
    (flipFlopBit wires.isPowered gate.state gate.pins)
  exact ⟨hclock, fun hset => hbit.trans (flipFlopBit_of_unset hset)⟩

end Gate

namespace Circuit

variable {c : Circuit} {flip : Gate}

theorem behaviour_gateAfter (c : Circuit) (gate : Gate) (k : Nat) :
    (c.gateAfter gate k).behaviour = gate.behaviour := by
  show (c.gateAfter gate k).bare.behaviour = gate.bare.behaviour
  rw [bare_gateAfter]

theorem input_gateAfter (c : Circuit) (gate : Gate) (k : Nat) (wires : Arena) (place : Nat) :
    (c.gateAfter gate k).input wires place = gate.input wires place := by
  show (c.gateAfter gate k).bare.input wires place = gate.bare.input wires place
  rw [bare_gateAfter]

/-- The first output of a flip-flop shows its bit. -/
theorem signalAfter_flipFlop (hforward : Gate.Forward c.gates)
    (hnodup : (c.gates.flatMap Gate.outputs).Nodup) (hmem : flip ∈ c.gates)
    (hflip : flip.behaviour = .flipFlop) {bit : WireId} (hbit : bit ∈ flip.outputs.head?)
    (hknown : bit ∈ c.wires.ids) (k : Nat) :
    c.signalAfter bit (k + 1) = stateBit (c.gateAfter flip (k + 1)).state 1 := by
  have hreact := Gate.react_flipFlop ((c.behaviour_gateAfter flip k).trans hflip)
    fun id => c.signalAfter id k
  have hstate : (c.gateAfter flip (k + 1)).state = flipFlopState _ _ :=
    congrArg Reaction.state hreact
  obtain ⟨outputs, houtputs⟩ := List.head?_eq_some_iff.1 hbit
  have hsame : (c.gateAfter flip k).outputs = flip.outputs :=
    Gate.outputs_eq_of_bare_eq (c.bare_gateAfter flip k)
  rw [hstate, (stateBit_flipFlopState _ _).2]
  have hdrive : (bit, flipFlopBit (fun id => c.signalAfter id k) (c.gateAfter flip k).state
      (c.gateAfter flip k).pins) ∈
        ((c.gateAfter flip k).react fun id => c.signalAfter id k).drives := by
    rw [hreact, hsame, houtputs]
    exact List.mem_cons_self
  exact signalAfter_succ hforward hnodup hmem hdrive hknown

/-! ## A clock that changes once -/

/-- A clock and a reset that change their levels once, and were seen before, change what a
flip-flop remembers once at most, one round later. -/
theorem stateBit_gateAfter (hflip : flip.behaviour = .flipFlop) {before after reset reset' : Bool}
    {change : Nat}
    (hclock : ∀ k, flip.input (round^[k] c).wires 0 = if k ≤ change then before else after)
    (hset : ∀ k, flip.input (round^[k] c).wires 2 = false)
    (hreset : ∀ k, flip.input (round^[k] c).wires 3 = if k ≤ change then reset else reset')
    (hseen : stateBit flip.state 0 = before)
    (hclear : reset = true → stateBit flip.state 1 = false) (k : Nat) :
    stateBit (c.gateAfter flip k).state 0 = (if k ≤ change + 1 then before else after) ∧
      stateBit (c.gateAfter flip k).state 1 =
        if k ≤ change + 1 then stateBit flip.state 1
        else !reset' && ((!before && after && flip.input (round^[change + 1] c).wires 1) ^^
          stateBit flip.state 1) := by
  induction k with
  | zero => exact ⟨hseen, rfl⟩
  | succ k ih =>
    obtain ⟨hsaw, hholds⟩ := ih
    obtain ⟨hclock', hbit'⟩ := Gate.stateBit_answering
      ((c.behaviour_gateAfter flip k).trans hflip) (round^[k] c).wires
    simp only [input_gateAfter] at hclock' hbit'
    have hnext : c.gateAfter flip (k + 1) =
        (c.gateAfter flip k).answering (round^[k] c).wires.isPowered := rfl
    rw [hnext, hclock', hbit' (hset k), hsaw, hholds, hclock, hreset]
    -- Before the change and after it has been seen, the clock is as it was seen last.
    rcases Nat.lt_trichotomy k (change + 1) with hlt | rfl | hlt
    · have hkeep : (!reset && stateBit flip.state 1) = stateBit flip.state 1 := by
        cases hreset' : reset with
        | true => rw [hclear hreset', Bool.and_false]
        | false => rw [Bool.not_false, Bool.true_and]
      simp [if_pos (Nat.le_of_lt_succ hlt), if_pos hlt.le, hkeep]
    · have hpast : ¬change + 1 ≤ change := by omega
      have hpast' : ¬change + 1 + 1 ≤ change + 1 := by omega
      simp only [if_neg hpast, if_pos (le_refl (change + 1)), if_neg hpast', true_and]
      rw [Bool.and_comm after]
    · have hpast : ¬k ≤ change := by omega
      have hpast' : ¬k ≤ change + 1 := by omega
      have hpast'' : ¬k + 1 ≤ change + 1 := by omega
      simp only [if_neg hpast, if_neg hpast', if_neg hpast'', true_and, Bool.and_not_self,
        Bool.false_and, Bool.false_xor]
      rw [← Bool.and_assoc, Bool.and_self]

end Circuit

end Gatework
