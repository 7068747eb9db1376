import Gatework.Proofs.Simulation.Order

/-!
# Rounds of circuits that feed forward

The gates of a round act one after the other and change wires in place, the last gate
first.  If no gate reads what a later gate of the list drives, and no wire is driven
twice, then this cannot be told from a round in which all gates read the wires before
any of them changes one.  An edge thus moves on by one gate in each round.

There are three groups.

* `Gate.Forward` lists, which are acyclic if no gate feeds itself.
* One round: every gate answers to the signals with which the round begins
  (`gates_act_of_forward`), and its answer is what the round leaves on the wires
  (`isPowered_act_of_forward`).
* Many rounds: `Circuit.gateAfter` follows one gate through them.  A circuit that settles
  is, from some round on, what its simulation leaves.
-/

namespace Gatework

/-! ## Lists that feed forward -/

namespace Gate

/-- Gates that read nothing that later gates of the list drive. -/
def Forward (gates : List Gate) : Prop :=
  gates.Pairwise fun gate later => ∀ wire ∈ later.outputs, wire ∉ gate.inputs

theorem acyclic_of_forward {gates : List Gate} (h : Forward gates)
    (hself : ∀ gate ∈ gates, ∀ wire ∈ gate.outputs, wire ∉ gate.inputs) : Acyclic gates := by
  refine acyclic_of_feeds_lt fun i j ⟨wire, hout, hin⟩ => ?_
  by_contra hle
  rcases (not_lt.1 hle).eq_or_lt with heq | hlt
  · rw [heq] at hin
    exact hself _ (List.getElem_mem i.isLt) wire hout hin
  · exact List.pairwise_iff_getElem.1 h j i j.isLt i.isLt hlt wire hout hin

theorem forward_map_answering {gates : List Gate} (h : Forward gates) (read : WireId → Bool) :
    Forward (gates.map (answering read)) := by
  rw [Forward, List.pairwise_map]
  exact h

end Gate

/-! ## One round -/

namespace Circuit

variable {gates : List Gate}

/-- A gate reads the signals with which the round begins, when the later gates have acted. -/
theorem react_act_of_forward {gate : Gate} {later : List Gate}
    (h : Gate.Forward (gate :: later)) (wires : Arena) :
    gate.react (act later wires).wires.isPowered = gate.react wires.isPowered := by
  refine Behaviour.react_congr gate.behaviour gate.pins (fun wire hwire => ?_) gate.state
  refine isPowered_act_of_not_driven (fun other hother hdriven => ?_) wires
  exact (List.pairwise_cons.1 h).1 other hother wire (Gate.mem_outputs_of_mem_driven hdriven) hwire

/-- So all gates answer to these signals. -/
theorem gates_act_of_forward (h : Gate.Forward gates) (wires : Arena) :
    (act gates wires).gates = gates.map (Gate.answering wires.isPowered) := by
  induction gates with
  | nil => rfl
  | cons gate later ih =>
    rw [act_cons, react_act_of_forward h, ih h.of_cons, List.map_cons]
    rfl

/-- The answer of a gate to them is what the round leaves on the wires. -/
theorem isPowered_act_of_forward (h : Gate.Forward gates)
    (hnodup : (gates.flatMap Gate.outputs).Nodup) {wires : Arena} {gate : Gate}
    (hgate : gate ∈ gates) {drive : WireId × Bool}
    (hdrive : drive ∈ (gate.react wires.isPowered).drives) (hid : drive.1 ∈ wires.ids) :
    (act gates wires).wires.isPowered drive.1 = drive.2 := by
  induction gates with
  | nil => exact absurd hgate List.not_mem_nil
  | cons first later ih =>
    rw [List.flatMap_cons, List.nodup_append] at hnodup
    rw [act_cons, react_act_of_forward h]
    rcases List.mem_cons.1 hgate with rfl | hgate
    · refine Arena.isPowered_drive_of_mem ?_ hdrive ?_
      · rw [Gate.map_fst_react]
        exact Gate.nodup_driven hnodup.1
      · rwa [Arena.ids_eq_of_dark_eq (dark_act later wires)]
    · have hout : drive.1 ∈ gate.outputs := by
        refine Gate.mem_outputs_of_mem_driven ?_
        rw [← Gate.map_fst_react wires.isPowered]
        exact List.mem_map_of_mem hdrive
      rw [Arena.isPowered_drive_of_not_mem]
      · exact ih h.of_cons hnodup.2.1 hgate
      · rw [Gate.map_fst_react]
        intro hdriven
        exact hnodup.2.2 _ (Gate.mem_outputs_of_mem_driven hdriven) _
          (List.mem_flatMap.2 ⟨gate, hgate, hout⟩) rfl

/-! ## Many rounds -/

variable {c : Circuit}

/-- The signal of a wire after a number of rounds. -/
def signalAfter (c : Circuit) (id : WireId) (k : Nat) : Bool := (round^[k] c).wires.isPowered id

/-- A gate of a circuit after a number of rounds. -/
def gateAfter (c : Circuit) (gate : Gate) : Nat → Gate
  | 0 => gate
  | k + 1 => (c.gateAfter gate k).answering fun id => c.signalAfter id k

@[simp] theorem signalAfter_zero (c : Circuit) (id : WireId) :
    c.signalAfter id 0 = c.wires.isPowered id := rfl

theorem bare_gateAfter (c : Circuit) (gate : Gate) (k : Nat) :
    (c.gateAfter gate k).bare = gate.bare := by
  induction k with
  | zero => rfl
  | succ k ih => exact ih

theorem forward_iterate (h : Gate.Forward c.gates) (k : Nat) :
    Gate.Forward (round^[k] c).gates := by
  induction k with
  | zero => exact h
  | succ k ih =>
    rw [Function.iterate_succ_apply', round_eq, gates_act_of_forward ih]
    exact Gate.forward_map_answering ih _

theorem gates_iterate (h : Gate.Forward c.gates) (k : Nat) :
    (round^[k] c).gates = c.gates.map fun gate => c.gateAfter gate k := by
  induction k with
  | zero => exact (List.map_id' c.gates).symm
  | succ k ih =>
    rw [Function.iterate_succ_apply', round_eq, gates_act_of_forward (forward_iterate h k), ih,
      List.map_map]
    rfl

/-- The answer of a gate to the signals after some rounds is what the next round leaves. -/
theorem signalAfter_succ (h : Gate.Forward c.gates)
    (hnodup : (c.gates.flatMap Gate.outputs).Nodup) {gate : Gate} (hgate : gate ∈ c.gates)
    {k : Nat} {drive : WireId × Bool}
    (hdrive : drive ∈ ((c.gateAfter gate k).react fun id => c.signalAfter id k).drives)
    (hid : drive.1 ∈ c.wires.ids) : c.signalAfter drive.1 (k + 1) = drive.2 := by
  have hmem : c.gateAfter gate k ∈ (round^[k] c).gates := by
    rw [gates_iterate h]
    exact List.mem_map_of_mem hgate
  rw [signalAfter, Function.iterate_succ_apply', round_eq]
  refine isPowered_act_of_forward (forward_iterate h k) (nodup_outputs_iterate hnodup k) hmem
    hdrive ?_
  rwa [Arena.ids_eq_of_dark_eq (dark_iterate_round c k)]

/-- A circuit that feeds forward settles. -/
theorem converged_of_forward (h : Gate.Forward c.gates)
    (hself : ∀ gate ∈ c.gates, ∀ wire ∈ gate.outputs, wire ∉ gate.inputs) :
    c.simulate.1.converged = true := by
  have hranks := Gate.ranks_reaching (Gate.acyclic_of_forward h hself)
  refine (hranks.simulate (Gate.card_reaching_le c.gates) ?_).1
  unfold roundLimit
  omega

/-- A circuit that settles stays, from some round on, what its simulation leaves. -/
theorem exists_iterate_eq_of_converged (h : c.simulate.1.converged = true) :
    ∃ k, ∀ j, k ≤ j → round^[j] c = c.simulate.2 := by
  obtain ⟨k, hlast, hrest⟩ := exists_atRest_of_converged h
  refine ⟨k + 1, fun j hj => ?_⟩
  obtain ⟨more, rfl⟩ := Nat.exists_eq_add_of_le hj
  rw [Nat.add_comm, Function.iterate_add_apply, Function.iterate_succ_apply', hlast]
  exact Function.iterate_fixed (round_round_of_atRest hrest) more

end Circuit

end Gatework
