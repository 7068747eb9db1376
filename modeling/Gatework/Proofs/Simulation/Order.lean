import Gatework.Proofs.Simulation.Acyclic
import Gatework.Proofs.Simulation.Equations

/-!
# Circuits that compute from their inputs

The result of a circuit without cycles, none of whose gates remembers an edge, depends
neither on the order of its gates nor on the signals that driven wires had before.
Rounds change wires in place, so another order goes through other signals and takes
another number of rounds.  What decides is where it ends: the equations of the gates
have one solution.

There are three groups.

* Gates whose answer does not depend on what they remember, and which drive all of
  their outputs (`Gate.isCombinational`).
* A circuit of such gates that has settled: every gate has the state, and every driven
  wire the signal, that the gate answers to the final signals (`gates_of_converged`,
  `isPowered_of_converged`).
* Two circuits of the same gates.  Their final signals are equal, by induction on the
  number of a wire (`isPowered_eq_of_ranks`).
-/

namespace Gatework

/-! ## Combinational gates -/

/-- Whether a gate on some pins computes all of its outputs from its inputs and its
switch.  Lamps have no outputs. -/
def Behaviour.isCombinational {α : Type} (pins : Pins α) : Behaviour → Bool
  | conj | disj | negation | relay => !pins.inputs.isEmpty && pins.outputs.length == 1
  | constant _ | switch => pins.outputs.length == 1
  | led => pins.outputs.isEmpty
  | flipFlop | idle => false

/-- Combinational gates put a signal on each of their outputs. -/
theorem Behaviour.map_fst_react_of_isCombinational {α : Type} {behaviour : Behaviour}
    {pins : Pins α} (h : behaviour.isCombinational pins = true) (read : α → Bool)
    (state : String) : (behaviour.react read state pins).drives.map Prod.fst = pins.outputs := by
  cases behaviour <;> simp only [isCombinational, Bool.and_eq_true, Bool.not_eq_true', beq_iff_eq,
    List.isEmpty_iff] at h <;> simp only [react, Pins.map_fst_driving]
  case conj | disj | negation | relay =>
    rw [h.1]
    exact List.take_of_length_le (Nat.le_of_eq h.2)
  case constant => exact List.take_of_length_le (Nat.le_of_eq h)
  case switch =>
    rw [List.map_map]
    exact List.map_id' pins.outputs
  case led => rw [h, List.map_nil]
  all_goals exact absurd h Bool.false_ne_true

/-- A combinational gate that keeps its state, unless it remembers, ends up with the
state that it answers with. -/
theorem Behaviour.state_react_of_isCombinational {α : Type} {behaviour : Behaviour}
    {pins : Pins α} (h : behaviour.isCombinational pins = true) {read : α → Bool}
    {before after : String} (hkeep : behaviour.remembers = false → after = before)
    (hsettled : (behaviour.react read after pins).state = after) :
    (behaviour.react read before pins).state = after := by
  cases hremembers : behaviour.remembers with
  | false => rw [Behaviour.state_react hremembers, hkeep hremembers]
  | true =>
    cases behaviour with
    | led => exact hsettled
    | flipFlop => exact absurd h Bool.false_ne_true
    | _ => exact absurd hremembers Bool.false_ne_true

namespace Gate

/-- Whether a gate is combinational: AND, OR, NOT and the ends of blocks with an input
and one output, constants and switches with one output, and lamps without any. -/
def isCombinational (gate : Gate) : Bool := gate.behaviour.isCombinational gate.pins

theorem driven_of_isCombinational {gate : Gate} (h : gate.isCombinational = true) :
    gate.driven = gate.outputs :=
  Behaviour.map_fst_react_of_isCombinational h _ _

/-- The gate after it has acted on some signals. -/
def answering (read : WireId → Bool) (gate : Gate) : Gate :=
  { gate with state := (gate.react read).state }

theorem eq_answering {gate after : Gate} (h : gate.isCombinational = true)
    (hsame : gate.SameUpToMemory after) {wires : Arena} (hbalanced : after.Balanced wires) :
    after = gate.answering wires.isPowered := by
  have hbehaviour : after.behaviour = gate.behaviour := by
    show after.bare.behaviour = gate.bare.behaviour
    rw [hsame.1]
  have hpins : after.pins = gate.pins := by
    show after.bare.pins = gate.bare.pins
    rw [hsame.1]
  have hsettled := hbalanced.state
  rw [react, hbehaviour, hpins] at hsettled
  have hstate : (gate.react wires.isPowered).state = after.state :=
    Behaviour.state_react_of_isCombinational h hsame.2 hsettled
  calc after = { after.bare with state := after.state } := rfl
    _ = { gate.bare with state := (gate.react wires.isPowered).state } := by
      rw [hsame.1, hstate]
    _ = gate.answering wires.isPowered := rfl

end Gate

/-! ## Settled circuits -/

/-- A wire that is not there is not powered. -/
theorem Arena.isPowered_of_not_mem {a : Arena} {id : WireId} (h : id ∉ a.ids) :
    a.isPowered id = false := by
  rw [isPowered, find?_eq_none.2 h]
  rfl

namespace Circuit

theorem ids_simulate (c : Circuit) : c.simulate.2.wires.ids = c.wires.ids :=
  Arena.ids_eq_of_dark_eq (sameInputs_simulate c).wires

section Settled

variable {c : Circuit} (hcombinational : ∀ gate ∈ c.gates, gate.isCombinational = true)
  (hnodup : (c.gates.flatMap Gate.outputs).Nodup) (h : c.simulate.1.converged = true)

include hcombinational hnodup h

/-- Every gate of a settled circuit has acted on the final signals. -/
theorem gates_of_converged :
    c.simulate.2.gates = c.gates.map (Gate.answering c.simulate.2.wires.isPowered) := by
  have hbalanced := balanced_of_converged hnodup h
  have hsame := (sameInputs_simulate c).gates
  generalize c.simulate.2.gates = after at hbalanced hsame
  generalize c.gates = gates at hcombinational hsame
  induction hsame with
  | nil => rfl
  | cons hgate hgates ih =>
    rw [List.forall_mem_cons] at hcombinational hbalanced
    rw [List.map_cons, ← Gate.eq_answering hcombinational.1 hgate hbalanced.1,
      ← ih hbalanced.2 hcombinational.2]

/-- Every driven wire of a settled circuit has the signal that its gate answers to the
final signals. -/
theorem isPowered_of_converged {gate : Gate} (hgate : gate ∈ c.gates) {drive : WireId × Bool}
    (hdrive : drive ∈ (gate.react c.simulate.2.wires.isPowered).drives)
    (hid : drive.1 ∈ c.wires.ids) : c.simulate.2.wires.isPowered drive.1 = drive.2 := by
  have hmem : gate.answering c.simulate.2.wires.isPowered ∈ c.simulate.2.gates := by
    rw [gates_of_converged hcombinational hnodup h]
    exact List.mem_map_of_mem hgate
  have hagain : (gate.answering c.simulate.2.wires.isPowered).react c.simulate.2.wires.isPowered =
      gate.react c.simulate.2.wires.isPowered := gate.react_again _
  exact (balanced_of_converged hnodup h _ hmem).drives drive (by rwa [hagain])
    (by rwa [ids_simulate])

end Settled

/-! ## Two orders of the same gates -/

/-- Settled circuits of the same combinational gates, with the same wires and the same
signals on wires that no gate drives, have the same signals on all wires. -/
theorem isPowered_eq_of_ranks {c d : Circuit} (hperm : c.gates.Perm d.gates)
    (hcombinational : ∀ gate ∈ c.gates, gate.isCombinational = true)
    (hnodup : (c.gates.flatMap Gate.outputs).Nodup)
    (hids : ∀ id, id ∈ c.wires.ids ↔ id ∈ d.wires.ids)
    (hfree : ∀ id, (∀ gate ∈ c.gates, id ∉ gate.outputs) →
      c.wires.isPowered id = d.wires.isPowered id)
    (hc : c.simulate.1.converged = true) (hd : d.simulate.1.converged = true)
    {rank : WireId → Nat} (hrank : Ranks rank c.gates) (id : WireId) :
    c.simulate.2.wires.isPowered id = d.simulate.2.wires.isPowered id := by
  have hmem : ∀ gate, gate ∈ d.gates ↔ gate ∈ c.gates := fun gate => hperm.mem_iff.symm
  have hnodup' : (d.gates.flatMap Gate.outputs).Nodup :=
    (hperm.flatMap_right Gate.outputs).nodup_iff.1 hnodup
  -- The signals agree up to some number, so the next gates give the same answers.
  induction hnumber : rank id using Nat.strong_induction_on generalizing id with
  | _ number ih =>
    by_cases hdriven : ∃ gate ∈ c.gates, id ∈ gate.outputs
    · obtain ⟨gate, hgate, hout⟩ := hdriven
      rw [← Gate.driven_of_isCombinational (hcombinational gate hgate)] at hout
      have hinputs : ∀ wire ∈ gate.inputs,
          c.simulate.2.wires.isPowered wire = d.simulate.2.wires.isPowered wire := by
        intro wire hwire
        exact ih _ (hnumber ▸ (hrank gate hgate id hout).2 wire hwire) wire rfl
      have hreact : gate.react c.simulate.2.wires.isPowered =
          gate.react d.simulate.2.wires.isPowered :=
        Behaviour.react_congr gate.behaviour gate.pins hinputs gate.state
      rw [← Gate.map_fst_react c.simulate.2.wires.isPowered] at hout
      obtain ⟨drive, hdrive, rfl⟩ := List.mem_map.1 hout
      by_cases hid : drive.1 ∈ c.wires.ids
      · rw [isPowered_of_converged hcombinational hnodup hc hgate hdrive hid]
        rw [hreact] at hdrive
        exact (isPowered_of_converged (fun g hg => hcombinational g ((hmem g).1 hg)) hnodup' hd
          ((hmem gate).2 hgate) hdrive ((hids _).1 hid)).symm
      · have hid' := mt (hids drive.1).2 hid
        rw [← ids_simulate] at hid hid'
        rw [Arena.isPowered_of_not_mem hid, Arena.isPowered_of_not_mem hid']
    · push Not at hdriven
      rw [(sameInputs_simulate c).inputs id hdriven, hfree id hdriven,
        (sameInputs_simulate d).inputs id fun gate hgate => hdriven gate ((hmem gate).1 hgate)]

end Circuit

namespace Netlist

/-- The result of a circuit without cycles that computes from its inputs depends neither
on the order of its gates nor on the signals that driven wires have before: both
orders settle, with the same signals on all wires and the same state of each gate. -/
theorem simulate_of_perm (n m : Netlist) (hperm : n.gates.Perm m.gates)
    (hcombinational : ∀ gate ∈ n.gates, gate.isCombinational = true)
    (hnodup : (n.gates.flatMap Gate.outputs).Nodup) (hacyclic : Gate.Acyclic n.gates)
    (hids : ∀ id, id ∈ n.wires.ids ↔ id ∈ m.wires.ids)
    (hfree : ∀ id, (∀ gate ∈ n.gates, id ∉ gate.outputs) →
      n.wires.isPowered id = m.wires.isPowered id) :
    n.simulate.1.converged = true ∧ m.simulate.1.converged = true ∧
      (∀ id, n.simulate.2.wires.isPowered id = m.simulate.2.wires.isPowered id) ∧
      ∃ state : Gate → String,
        n.simulate.2.gates = n.gates.map (fun gate => { gate with state := state gate }) ∧
          m.simulate.2.gates = m.gates.map fun gate => { gate with state := state gate } := by
  have hlength : m.gates.length = n.gates.length := hperm.length_eq.symm
  have hn := (converged_of_acyclic n hacyclic).1
  have hranks := Gate.ranks_reaching hacyclic
  have hranks' : Circuit.Ranks (fun wire => (Gate.reaching n.gates wire).card) m.gates :=
    fun gate hgate => hranks gate (hperm.mem_iff.2 hgate)
  have hm : m.simulate.1.converged = true := by
    rw [simulate_fst]
    refine (hranks'.simulate (Gate.card_reaching_le n.gates) ?_).1
    show n.gates.length < max 1 (5 * (m.wires.size + m.gates.length))
    omega
  rw [simulate_fst] at hn hm
  have hsame := Circuit.isPowered_eq_of_ranks (c := n.circuit) (d := m.circuit) hperm
    hcombinational hnodup hids hfree hn hm hranks
  have hgates := Circuit.gates_of_converged (c := n.circuit) hcombinational hnodup hn
  have hgates' := Circuit.gates_of_converged (c := m.circuit)
    (fun gate hgate => hcombinational gate (hperm.mem_iff.2 hgate))
    ((hperm.flatMap_right Gate.outputs).nodup_iff.1 hnodup) hm
  rw [← circuit_simulate, ← circuit_simulate] at hsame
  rw [← circuit_simulate] at hgates hgates'
  rw [simulate_fst, simulate_fst]
  refine ⟨hn, hm, hsame, fun gate => (gate.react n.simulate.2.wires.isPowered).state, hgates, ?_⟩
  have hread : m.simulate.2.wires.isPowered = n.simulate.2.wires.isPowered :=
    funext fun id => (hsame id).symm
  rw [← hread]
  exact hgates'

/-- A lamp behind a gate that negates a switch, where another gate mixes in a wire that
is powered from outside. -/
def lighting : Netlist :=
  .ofParts
    [⟨⟨1⟩, .builtin, "toggle", [], [⟨1⟩], .root, "on"⟩,
      ⟨⟨2⟩, .negation, "", [⟨1⟩], [⟨2⟩], .root, ""⟩,
      ⟨⟨3⟩, .disj, "", [⟨2⟩, ⟨4⟩], [⟨3⟩], .root, ""⟩,
      ⟨⟨4⟩, .builtin, "led", [⟨3⟩], [], .root, "off"⟩]
    [.fresh ⟨1⟩ none, .fresh ⟨2⟩ none, .fresh ⟨3⟩ none, ⟨⟨4⟩, none, none, none, true⟩]

/-- The same gates the other way round, with other signals on the wires that they
drive. -/
def lightingReversed : Netlist :=
  { empty with
    gates := lighting.gates.reverse
    wires := .ofList [⟨⟨4⟩, none, none, none, true⟩, .fresh ⟨3⟩ none,
      ⟨⟨2⟩, none, none, none, true⟩, .fresh ⟨1⟩ none] }

theorem simulate_of_perm_lighting :
    lighting.gates.Perm lightingReversed.gates ∧
      (∀ gate ∈ lighting.gates, gate.isCombinational = true) ∧
      (lighting.gates.flatMap Gate.outputs).Nodup ∧ Gate.Acyclic lighting.gates ∧
      lighting.simulate.1.converged = true ∧ lightingReversed.simulate.1.converged = true ∧
      (∀ id, lighting.simulate.2.wires.isPowered id =
        lightingReversed.simulate.2.wires.isPowered id) ∧
      ∃ state : Gate → String,
        lighting.simulate.2.gates =
            lighting.gates.map (fun gate => { gate with state := state gate }) ∧
          lightingReversed.simulate.2.gates =
            lightingReversed.gates.map fun gate => { gate with state := state gate } := by
  have hperm : lighting.gates.Perm lightingReversed.gates := (List.reverse_perm _).symm
  have hcombinational : ∀ gate ∈ lighting.gates, gate.isCombinational = true := by decide
  have hnodup : (lighting.gates.flatMap Gate.outputs).Nodup := by decide
  have hacyclic : Gate.Acyclic lighting.gates := Gate.acyclic_of_feeds_lt (by decide)
  have hn : lighting.wires.ids = [⟨4⟩, ⟨3⟩, ⟨2⟩, ⟨1⟩] := by decide
  have hm : lightingReversed.wires.ids = [⟨1⟩, ⟨2⟩, ⟨3⟩, ⟨4⟩] := by decide
  have hids : ∀ id, id ∈ lighting.wires.ids ↔ id ∈ lightingReversed.wires.ids := by
    intro id
    rw [hn, hm, ← List.mem_reverse]
    rfl
  have hfree : ∀ id, (∀ gate ∈ lighting.gates, id ∉ gate.outputs) →
      lighting.wires.isPowered id = lightingReversed.wires.isPowered id := by
    intro id hfree
    by_cases hid : id ∈ lighting.wires.ids
    · have houtputs : ∀ wire ∈ lighting.wires.ids, wire = ⟨4⟩ ∨
          ∃ gate ∈ lighting.gates, wire ∈ gate.outputs := by decide
      rcases houtputs id hid with rfl | ⟨gate, hgate, hout⟩
      · decide
      · exact absurd hout (hfree gate hgate)
    · rw [Arena.isPowered_of_not_mem hid, Arena.isPowered_of_not_mem (mt (hids id).2 hid)]
  exact ⟨hperm, hcombinational, hnodup, hacyclic, simulate_of_perm lighting lightingReversed hperm
    hcombinational hnodup hacyclic hids hfree⟩

end Netlist

end Gatework
