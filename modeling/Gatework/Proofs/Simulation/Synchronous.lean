import Gatework.Proofs.Simulation.FlipFlop

/-!
# Rounds as synchronous steps

In a round the gates act one after the other and write to the wires in place.  If the gates
feed forward and no wire is driven twice, then the round is a synchronous step: every gate
reads the wires as they are when the round begins, and all outputs are written afterwards.
The last gate acts first for this reason.  A flip-flop that another one clocks sees the edge
in the round after the one in which it comes.

There are three groups.

* `Gate.answers` are the signals that gates put on wires if all of them read the same ones.
  The order in which they are written does not matter (`Arena.drive_eq_of_perm`).
* `Circuit.act_of_forward` says what the gates do one after the other.
* `Circuit.round_synchronous` is the result, and `round_synchronous_rippling` two flip-flops
  of which one is the clock of the other.
-/

namespace Gatework

/-! ## Answers of all gates -/

namespace Gate

/-- The signals that gates put on wires, if all of them read the same signals. -/
def answers (read : WireId → Bool) (gates : List Gate) : List (WireId × Bool) :=
  gates.flatMap fun gate => (gate.react read).drives

theorem map_fst_answers (read : WireId → Bool) (gates : List Gate) :
    (answers read gates).map Prod.fst = gates.flatMap driven := by
  rw [answers, List.map_flatMap]
  exact congrArg (gates.flatMap ·) (funext fun gate => map_fst_react read gate)

/-- No wire gets two answers. -/
theorem nodup_map_fst_answers {gates : List Gate} (h : (gates.flatMap outputs).Nodup)
    (read : WireId → Bool) : ((answers read gates).map Prod.fst).Nodup := by
  rw [map_fst_answers]
  induction gates with
  | nil => exact List.nodup_nil
  | cons gate later ih =>
    rw [List.flatMap_cons, List.nodup_append] at h ⊢
    refine ⟨nodup_driven h.1, ih h.2.1, fun id hid other hother => ?_⟩
    obtain ⟨g, hg, hdriven⟩ := List.mem_flatMap.1 hother
    exact h.2.2 id (mem_outputs_of_mem_driven hid) other
      (List.mem_flatMap.2 ⟨g, hg, mem_outputs_of_mem_driven hdriven⟩)

end Gate

namespace Arena

theorem drive_append (front back : List (WireId × Bool)) (a : Arena) :
    a.drive (front ++ back) = (a.drive front).drive back := List.foldl_append

/-- Signals for different wires can be written in any order. -/
theorem drive_eq_of_perm {drives drives' : List (WireId × Bool)} (hperm : drives.Perm drives')
    (hnodup : (drives.map Prod.fst).Nodup) (a : Arena) : a.drive drives = a.drive drives' := by
  have hdark : (a.drive drives).dark = (a.drive drives').dark := by
    rw [dark_drive, dark_drive]
  refine eq_of_dark_eq hdark fun id => ?_
  by_cases hid : id ∈ drives.map Prod.fst
  · obtain ⟨drive, hdrive, rfl⟩ := List.mem_map.1 hid
    by_cases hknown : drive.1 ∈ a.ids
    · rw [isPowered_drive_of_mem hnodup hdrive hknown,
        isPowered_drive_of_mem ((hperm.map Prod.fst).nodup_iff.1 hnodup)
          (hperm.mem_iff.1 hdrive) hknown]
    · have hmissing : ∀ drives : List (WireId × Bool), drive.1 ∉ (a.drive drives).ids := by
        intro drives
        rwa [ids_eq_of_dark_eq (dark_drive drives a)]
      rw [isPowered_of_not_mem (hmissing drives), isPowered_of_not_mem (hmissing drives')]
  · have hid' : id ∉ drives'.map Prod.fst := mt (hperm.map Prod.fst).mem_iff.2 hid
    rw [isPowered_drive_of_not_mem hid, isPowered_drive_of_not_mem hid']

end Arena

/-! ## One round -/

namespace Circuit

/-- Gates that feed forward all answer to the signals with which the round begins.  Their
answers are written as they act, those of the last gate first. -/
theorem act_of_forward {gates : List Gate} (h : Gate.Forward gates) (wires : Arena) :
    act gates wires = ⟨gates.map (Gate.answering wires.isPowered),
      wires.drive (Gate.answers wires.isPowered gates.reverse)⟩ := by
  induction gates with
  | nil => rfl
  | cons gate later ih =>
    have hanswers : Gate.answers wires.isPowered (gate :: later).reverse =
        Gate.answers wires.isPowered later.reverse ++ (gate.react wires.isPowered).drives := by
      rw [List.reverse_cons, Gate.answers, List.flatMap_append, List.flatMap_singleton]
      rfl
    rw [act_cons, react_act_of_forward h, ih h.of_cons, hanswers, Arena.drive_append]
    rfl

/-- A flip-flop remembers the level that its clock has when the round begins, and toggles if
the clock was low when it was seen last. -/
theorem exists_getElem?_round {c : Circuit} (h : Gate.Forward c.gates) {place : Nat}
    {flip : Gate} (hflip : c.gates[place]? = some flip) (hbehaviour : flip.behaviour = .flipFlop) :
    ∃ after : Gate, c.round.gates[place]? = some after ∧ after.behaviour = .flipFlop ∧
      (∀ wires pin, after.input wires pin = flip.input wires pin) ∧
      stateBit after.state 0 = flip.input c.wires 0 ∧
      (flip.input c.wires 2 = false → flip.input c.wires 3 = false →
        stateBit after.state 1 = ((flip.input c.wires 0 && !stateBit flip.state 0 &&
          flip.input c.wires 1) ^^ stateBit flip.state 1)) := by
  obtain ⟨hclock, hbit⟩ := Gate.stateBit_answering hbehaviour c.wires
  refine ⟨flip.answering c.wires.isPowered, ?_, hbehaviour, fun _ _ => rfl, hclock,
    fun hset hreset => ?_⟩
  · rw [round_eq, gates_act_of_forward h, List.getElem?_map, hflip, Option.map_some]
  · rw [hbit hset, hreset, Bool.not_false, Bool.true_and]

/-- A round of gates that feed forward, none of which drives a wire of another, is a
synchronous step: the gates answer to the signals with which the round begins, and the
answers are written afterwards, in any order.  So a clock that rises in a round makes no
flip-flop toggle in this round.  The next round does. -/
theorem round_synchronous (c : Circuit) (hforward : Gate.Forward c.gates)
    (hnodup : (c.gates.flatMap Gate.outputs).Nodup) :
    (∀ writes, writes.Perm (Gate.answers c.wires.isPowered c.gates) →
      c.round = ⟨c.gates.map (Gate.answering c.wires.isPowered), c.wires.drive writes⟩) ∧
    ∀ (place : Nat) (flip : Gate), c.gates[place]? = some flip → flip.behaviour = .flipFlop →
      flip.input c.wires 0 = false → flip.input c.round.wires 0 = true →
        ∃ after later : Gate, c.round.gates[place]? = some after ∧
          c.round.round.gates[place]? = some later ∧
          (flip.input c.wires 2 = false → flip.input c.wires 3 = false →
            stateBit after.state 1 = stateBit flip.state 1) ∧
          (flip.input c.round.wires 2 = false → flip.input c.round.wires 3 = false →
            stateBit later.state 1 =
              (flip.input c.round.wires 1 ^^ stateBit after.state 1)) := by
  constructor
  · intro writes hwrites
    have hreverse : (Gate.answers c.wires.isPowered c.gates.reverse).Perm writes :=
      ((List.reverse_perm c.gates).flatMap_right _).trans hwrites.symm
    have hnodup' : (c.gates.reverse.flatMap Gate.outputs).Nodup :=
      ((List.reverse_perm c.gates).flatMap_right _).nodup_iff.2 hnodup
    rw [round_eq, act_of_forward hforward,
      Arena.drive_eq_of_perm hreverse (Gate.nodup_map_fst_answers hnodup' _)]
  · intro place flip hflip hbehaviour hlow hhigh
    obtain ⟨after, hafter, hbehaviour', hinput, hseen, hbit⟩ :=
      exists_getElem?_round hforward hflip hbehaviour
    obtain ⟨later, hlater, -, -, -, hbit'⟩ :=
      exists_getElem?_round (forward_iterate hforward 1) hafter hbehaviour'
    simp only [hinput] at hbit'
    refine ⟨after, later, hafter, hlater, fun hset hreset => ?_, fun hset hreset => ?_⟩
    · rw [hbit hset hreset, hlow, Bool.false_and, Bool.false_and, Bool.false_xor]
    · have hrises : (flip.input c.round.wires 0 && !stateBit after.state 0) = true := by
        rw [hhigh, hseen, hlow]
        rfl
      have hnext := hbit' hset hreset
      rw [Function.iterate_one, hrises, Bool.true_and] at hnext
      exact hnext

/-- In the second round the first flip-flop turns on.  The other one, whose clock it is,
stays off in this round and turns on in the next one. -/
theorem round_synchronous_rippling :
    ∃ c, c = Netlist.rippling.circuit.round ∧ Gate.Forward c.gates ∧
      (c.gates.flatMap Gate.outputs).Nodup ∧
      (∀ writes, writes.Perm (Gate.answers c.wires.isPowered c.gates) →
        c.round = ⟨c.gates.map (Gate.answering c.wires.isPowered), c.wires.drive writes⟩) ∧
      ∃ flip after later : Gate, c.gates[2]? = some flip ∧ flip.behaviour = .flipFlop ∧
        flip.input c.wires 0 = false ∧ flip.input c.round.wires 0 = true ∧
        c.round.gates[2]? = some after ∧ c.round.round.gates[2]? = some later ∧
        stateBit after.state 1 = false ∧ stateBit later.state 1 = true := by
  let c := Netlist.rippling.circuit.round
  let flip : Gate := ⟨⟨3⟩, .builtin, "tflipflop", [⟨2⟩, ⟨1⟩], [⟨4⟩, ⟨5⟩], .root, "00"⟩
  have hforward : Gate.Forward c.gates := by
    unfold Gate.Forward
    decide
  have hnodup : (c.gates.flatMap Gate.outputs).Nodup := by decide
  have hflip : c.gates[2]? = some flip := by decide
  have hlow : flip.input c.wires 0 = false := by decide
  have hhigh : flip.input c.round.wires 0 = true := by decide
  obtain ⟨hwrites, hflips⟩ := round_synchronous c hforward hnodup
  obtain ⟨after, later, hafter, hlater, hbit, hbit'⟩ := hflips 2 flip hflip rfl hlow hhigh
  have hoff := hbit (by decide) (by decide)
  have hon := hbit' (by decide) (by decide)
  rw [hoff] at hon
  exact ⟨c, rfl, hforward, hnodup, hwrites, flip, after, later, hflip, rfl, hlow, hhigh, hafter,
    hlater, hoff.trans (by decide), hon.trans (by decide)⟩

end Circuit

end Gatework
