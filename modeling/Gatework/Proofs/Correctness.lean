import Gatework.Proofs.Expansion.Lockstep
import Gatework.Proofs.Simulation.Acyclic

/-!
# Simulating a description computes its values

The netlist of a combinational description, in which no name is rebound, settles
from any signals, and its outputs then show the values of the description.

There are three groups.

* The netlist of a straight draft.  Its wires are ranked by their numbers, so it
  settles, and no wire is driven twice, so the gates are solved.
* A simulation leaves the declared wires alone.
* `simulate_ofForest_eq_evaluate` is the result.
-/

namespace Gatework

namespace Draft

variable {d : Draft}

/-! ## Netlists of straight drafts -/

/-- The circuit of a draft, with some signals. -/
def circuit (signals : WireId → Bool) (d : Draft) : Circuit :=
  ⟨d.gates.reverse, d.wires.withSignals signals⟩

theorem nodup_outputs_circuit (h : d.Straight) (signals : WireId → Bool) :
    ((d.circuit signals).gates.flatMap Gate.outputs).Nodup := by
  have hperm := d.gates.reverse_perm.flatMap_right Gate.outputs
  exact hperm.nodup_iff.2 h.nodup

/-- A wire has its number as its rank. -/
theorem ranks_circuit (h : d.Straight) (hd : d.Numbered) (signals : WireId → Bool) :
    Circuit.Ranks (fun id => min id.number.toNat d.wires.size) (d.circuit signals).gates := by
  intro gate hgate id hid
  have hgate' : gate ∈ d.gates := List.mem_reverse.1 hgate
  have houtput := Gate.mem_outputs_of_mem_driven hid
  have hnumber := hd.number_le (h.driven gate hgate' id houtput).1
  have hpos : 0 < min id.number.toNat d.wires.size := by omega
  refine ⟨hpos, fun wire hwire => ?_⟩
  have hlt := h.ranked gate hgate' id houtput wire hwire
  show min wire.number.toNat d.wires.size < min id.number.toNat d.wires.size
  omega

theorem converged_circuit (h : d.Straight) (hd : d.Numbered) (signals : WireId → Bool) :
    (d.circuit signals).simulate.1.converged = true := by
  have hbound : ∀ id : WireId, min id.number.toNat d.wires.size ≤ d.wires.size :=
    fun id => Nat.min_le_right _ _
  refine ((ranks_circuit h hd signals).simulate hbound ?_).1
  have hsize : (d.circuit signals).wires.size = d.wires.size := Arena.size_withSignals _ _
  unfold Circuit.roundLimit
  rw [hsize]
  omega

/-- The signals that a simulation leaves solve the equations of the gates. -/
theorem solution_circuit (h : d.Straight) (hd : d.Numbered) (hsmall : d.wires.size < UInt32.size)
    (hnone : d.rebindings = []) (signals : WireId → Bool) :
    d.Solution (d.circuit signals).simulate.2.wires := by
  have hconverged := converged_circuit h hd signals
  have hbalanced := Circuit.balanced_of_converged (nodup_outputs_circuit h signals) hconverged
  have hsame := (d.circuit signals).sameInputs_simulate
  refine ⟨hsmall, hnone, ?_, fun gate hgate => ?_⟩
  · rw [Arena.ids_eq_of_dark_eq hsame.wires]
    exact Arena.ids_withSignals _ _
  · obtain ⟨gate', hgate', hbare, -⟩ :=
      Circuit.exists_of_mem_forall₂ hsame.gates.flip (List.mem_reverse.2 hgate)
    have heq : gate' = { gate with state := gate'.state } := by
      show { gate'.bare with state := gate'.state } = { gate.bare with state := gate'.state }
      rw [hbare]
    refine ⟨gate'.state, ?_⟩
    rw [← heq]
    exact (hbalanced gate' hgate').satisfied

/-! ## Declared wires -/

/-- Declared wires are inputs: they keep their signals. -/
theorem isPowered_declared (h : d.Straight) (signals : WireId → Bool) {id : WireId}
    (hid : id ∈ d.wires.declared) :
    (d.circuit signals).simulate.2.wires.isPowered id = signals id := by
  have hfree : ∀ gate ∈ (d.circuit signals).gates, id ∉ gate.outputs := by
    intro gate hgate hout
    exact (h.driven gate (List.mem_reverse.1 hgate) id hout).2 hid
  have hmem : id ∈ d.wires.ids := Arena.mem_ids_of_mem_declared hid
  rw [(d.circuit signals).sameInputs_simulate.inputs id hfree]
  show (d.wires.withSignals signals).isPowered id = signals id
  rw [Arena.isPowered_withSignals, Arena.isSome_find?, decide_eq_true hmem, Bool.true_and]

/-- No assignment of an expansion is to a name that the open scope has bound. -/
def NeverRebinds (limit : UInt64) (nodes : List Node) : Prop :=
  ∀ outputs d, Draft.ofForest limit nodes = .ok (outputs, d) → d.rebindings = []

instance (limit : UInt64) (nodes : List Node) : Decidable (NeverRebinds limit nodes) :=
  match h : Draft.ofForest limit nodes with
  | .error _ => isTrue fun _ _ hd => nomatch h.symm.trans hd
  | .ok (outputs, d) => decidable_of_iff (d.rebindings = []) <| by
      constructor
      · intro hnone outputs' d' hd
        cases h.symm.trans hd
        exact hnone
      · exact fun hfresh => hfresh outputs d h

end Draft

/-! ## Netlists of descriptions -/

namespace Netlist

/-- The netlist whose wires have the signals of a function. -/
def withSignals (signals : WireId → Bool) (n : Netlist) : Netlist :=
  { n with wires := n.wires.withSignals signals }

theorem exists_draft_of_ofForest {limit : UInt64} {nodes : List Node} {n : Netlist}
    (h : Netlist.ofForest limit nodes = .ok n) :
    ∃ d, Draft.ofForest limit nodes = .ok (n.outputs, d) ∧ n.wires = d.wires ∧
      n.gates = d.gates.reverse := by
  obtain ⟨outputs, d, hd, rfl⟩ := eq_linkContexts_of_ofForest h
  exact ⟨d, hd, rfl, rfl⟩

/-- A combinational description, in the expansion of which no name is rebound, has a
netlist that settles from any signals.  The outputs then show the values of the
description, in which the names that it does not assign have the signals of their
wires. -/
theorem simulate_ofForest_eq_evaluate {limit : UInt64} {nodes : List Node} {n : Netlist}
    (hnodes : Node.allIn Node.isCombinational nodes = true)
    (hn : Netlist.ofForest limit nodes = .ok n) (hsmall : n.wires.size < UInt32.size)
    (hfresh : Draft.NeverRebinds limit nodes) (signals : WireId → Bool) :
    (n.withSignals signals).simulate.1.converged = true ∧
      ∀ fuel, Expansion.nestingBound limit nodes ≤ fuel →
        Evaluation.evaluate fuel (n.wires.declared.map signals) nodes =
          some ((n.withSignals signals).simulate.2.outputs.map
            (n.withSignals signals).simulate.2.wires.isPowered) := by
  obtain ⟨d, hd, hwires, hgates⟩ := exists_draft_of_ofForest hn
  rw [hwires] at hsmall ⊢
  have hnone := hfresh _ d hd
  have hreaches := (Draft.leads_ofForest hnodes hd).reaches
  have hnumbered := hreaches.numbered hsmall
  have hstraight := hreaches.straight hsmall hnone
  have hcircuit : (n.withSignals signals).circuit = d.circuit signals := by
    show Circuit.mk n.gates (n.wires.withSignals signals) = _
    rw [hwires, hgates]
    rfl
  have houtputs : (n.withSignals signals).simulate.2.outputs = n.outputs := by
    rw [simulate_eq]
    rfl
  have hfinal : (n.withSignals signals).simulate.2.wires =
      (d.circuit signals).simulate.2.wires := by
    rw [← hcircuit, ← circuit_simulate]
    rfl
  refine ⟨?_, fun fuel hfuel => ?_⟩
  · rw [simulate_fst, hcircuit]
    exact Draft.converged_circuit hstraight hnumbered signals
  · have hsolution := Draft.solution_circuit hstraight hnumbered hsmall hnone signals
    have hvalues := Evaluation.evaluate_eq hnodes hsolution hd hfuel
    have hinputs : d.wires.declared.map signals =
        d.wires.declared.map (d.circuit signals).simulate.2.wires.isPowered :=
      List.map_congr_left fun id hid => (Draft.isPowered_declared hstraight signals hid).symm
    rw [hinputs, houtputs, hfinal]
    exact hvalues

/-- A block with a block inside it, expanded twice.  The inner block uses a name of
the scope around it, and one that no scope binds, which is declared anew each
time. -/
def mixing : List Node :=
  let pos := Position.start
  let name := Node.identifier pos
  [.block pos "mix" ["a", "b"] 2
      [.block pos "gated" ["x"] 2
          [.returns pos, .group pos [.binary pos .conj (name "x") (some (name "enable"))],
            .negation pos (some (name "b"))],
        .assignment pos ["_", "low"], .invocation pos "gated" [name "a"],
        .returns pos, name "low", .binary pos .disj (name "a") (some (name "low"))],
    .assignment pos ["p", "q"], .invocation pos "mix" [name "left", name "right"],
    .comment pos false " crossed",
    .invocation pos "mix" [name "q", name "p"]]

/-- With power on the first of its four inputs only. -/
theorem simulate_ofForest_mixing :
    ∃ n, Netlist.ofForest 3 mixing = .ok n ∧ n.wires.declared = [⟨1⟩, ⟨2⟩, ⟨6⟩, ⟨17⟩] ∧
      (n.withSignals (· = ⟨1⟩)).simulate.1.converged = true ∧
      (n.withSignals (· = ⟨1⟩)).simulate.2.outputs.map
        (n.withSignals (· = ⟨1⟩)).simulate.2.wires.isPowered = [false, true] := by
  have hbuilt : (Netlist.ofForest 3 mixing).toOption.map
      (fun n => (n.wires.size, n.wires.declared)) = some (24, [⟨1⟩, ⟨2⟩, ⟨6⟩, ⟨17⟩]) := by
    decide +kernel
  cases hn : Netlist.ofForest 3 mixing with
  | error halt =>
    rw [hn] at hbuilt
    exact absurd hbuilt nofun
  | ok n =>
    rw [hn] at hbuilt
    obtain ⟨hsize, hdeclared⟩ := Prod.mk.inj (Option.some.inj hbuilt)
    have hsmall : n.wires.size < UInt32.size := by
      rw [hsize]
      decide
    obtain ⟨hconverged, hvalues⟩ := simulate_ofForest_eq_evaluate (by decide +kernel) hn hsmall
      (by decide +kernel) (· = ⟨1⟩)
    have hevaluated := hvalues _ (Nat.le_refl _)
    rw [hdeclared] at hevaluated
    have hcomputed : Evaluation.evaluate (Expansion.nestingBound 3 mixing)
        ([⟨1⟩, ⟨2⟩, ⟨6⟩, ⟨17⟩].map fun id : WireId => decide (id = ⟨1⟩)) mixing =
        some [false, true] := by decide +kernel
    rw [hcomputed] at hevaluated
    exact ⟨n, rfl, hdeclared, hconverged, (Option.some.inj hevaluated).symm⟩

end Netlist

end Gatework
