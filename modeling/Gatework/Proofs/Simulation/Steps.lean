import Gatework.Proofs.Correctness
import Gatework.Proofs.Simulation.Components

/-!
# Steps of a netlist

A step gives signals to wires that the description uses without assigning them, and then
simulates.  It changes signals and states, and nothing else.

There are three groups.

* `Netlist.unlit` is what signals and states leave of a netlist, and its `Layout` what a
  simulation needs to know of that.
* `Netlist.stepped` is one step, and `Netlist.afterSteps` what some of them make of a
  netlist.
* An invariant of every step holds after all of them (`Netlist.afterSteps_induction`).
-/

namespace Gatework

/-! ## What does not change -/

/-- The gates of a netlist, and the wires that are there, that are set and that are shown. -/
structure Layout where
  components : List Component
  ids : List WireId
  inputs : List (Option WireId)
  outputs : List WireId
deriving DecidableEq

namespace Netlist

variable {n m : Netlist}

/-- The netlist with all wires unpowered, and with gates that remember nothing. -/
def unlit (n : Netlist) : Netlist :=
  { n with gates := n.gates.map Gate.bare, wires := n.wires.dark }

theorem unlit_withSignals (signals : WireId → Bool) (n : Netlist) :
    (n.withSignals signals).unlit = n.unlit := by
  have hdark : (n.wires.withSignals signals).dark = n.wires.dark :=
    Arena.withSignals_withSignals _ _ _
  unfold unlit withSignals
  rw [hdark]

theorem unlit_setPowered (id : WireId) (powered : Bool) (n : Netlist) :
    (n.setPowered id powered).unlit = n.unlit := by
  unfold unlit setPowered
  rw [Arena.dark_setPowered]

theorem unlit_simulate (n : Netlist) : n.simulate.2.unlit = n.unlit := by
  have hsame := n.circuit.sameInputs_simulate
  have hgates : n.circuit.simulate.2.gates.map Gate.bare = n.gates.map Gate.bare :=
    List.forall₂_eq_eq_eq ▸ (List.forall₂_map_left_iff.2 (List.forall₂_map_right_iff.2
      (hsame.gates.flip.imp fun _ _ hsame => hsame.1)))
  rw [simulate_eq]
  unfold unlit
  rw [hgates, hsame.wires]
  rfl

/-- The wire of a name is found by its description. -/
theorem map_id_input?_of_unlit_eq (h : n.unlit = m.unlit) (name : String) :
    (n.input? name).map Wire.id = (m.input? name).map Wire.id := by
  have hdark : ∀ n : Netlist, (n.input? name).map Wire.id = (n.unlit.input? name).map Wire.id := by
    intro n
    rw [input?, input?, unlit, Arena.dark, Arena.wires, Arena.wires, Arena.withSignals,
      ← List.map_reverse, List.find?_map, Option.map_map]
    rfl
  rw [hdark, h, ← hdark]

/-- The layout of a netlist, with the wires that the description uses under some names
without assigning them. -/
def layout (names : List String) (n : Netlist) : Layout where
  components := n.gates.map Gate.component
  ids := n.wires.ids
  inputs := names.map fun name => (n.input? name).map Wire.id
  outputs := n.outputs

theorem layout_eq_of_unlit_eq (h : n.unlit = m.unlit) (names : List String) :
    n.layout names = m.layout names := by
  have hgates : ∀ n : Netlist,
      n.gates.map Gate.component = n.unlit.gates.map Gate.component := by
    intro n
    rw [unlit, List.map_map]
    rfl
  have hids : n.wires.ids = m.wires.ids := Arena.ids_eq_of_dark_eq (congrArg Netlist.wires h)
  have hinputs := funext (map_id_input?_of_unlit_eq h)
  have houtputs : n.outputs = m.outputs := congrArg (fun n => n.outputs) h
  rw [layout, layout, hgates, h, ← hgates, hids, hinputs, houtputs]

theorem gates_circuit (n : Netlist) : n.circuit.gates = n.gates := rfl

theorem wires_circuit (n : Netlist) : n.circuit.wires = n.wires := rfl

/-! ## Steps -/

/-- The netlist in which the wire of a name, if there is one, is powered or not. -/
def setInput (name : String) (powered : Bool) (n : Netlist) : Netlist :=
  match n.input? name with
  | some wire => n.setPowered wire.id powered
  | none => n

/-- The netlist in which the wires of some names are powered or not. -/
def setInputs (inputs : List (String × Bool)) (n : Netlist) : Netlist :=
  inputs.foldl (fun n input => n.setInput input.1 input.2) n

/-- Gives signals to the wires of some names and simulates. -/
def stepped (inputs : List (String × Bool)) (n : Netlist) : Circuit.Verdict × Netlist :=
  (n.setInputs inputs).simulate

/-- The signals of a step for two names. -/
def inputPair (first second : String) (step : Bool × Bool) : List (String × Bool) :=
  [(first, step.1), (second, step.2)]

/-- The netlist after some steps. -/
def afterSteps (steps : List (List (String × Bool))) (n : Netlist) : Netlist :=
  steps.foldl (fun n inputs => (n.stepped inputs).2) n

theorem setInput_eq {name : String} {id : WireId} (h : (n.input? name).map Wire.id = some id)
    (powered : Bool) : n.setInput name powered = n.setPowered id powered := by
  obtain ⟨wire, hwire, rfl⟩ := Option.map_eq_some_iff.1 h
  rw [setInput, hwire]

theorem unlit_setInput (name : String) (powered : Bool) (n : Netlist) :
    (n.setInput name powered).unlit = n.unlit := by
  unfold setInput
  split
  · exact unlit_setPowered _ _ _
  · rfl

theorem unlit_setInputs (inputs : List (String × Bool)) (n : Netlist) :
    (n.setInputs inputs).unlit = n.unlit := by
  induction inputs generalizing n with
  | nil => rfl
  | cons input inputs ih => exact (ih _).trans (unlit_setInput _ _ _)

theorem gates_setInputs (inputs : List (String × Bool)) (n : Netlist) :
    (n.setInputs inputs).gates = n.gates := by
  induction inputs generalizing n with
  | nil => rfl
  | cons input inputs ih =>
    have hinput : (n.setInput input.1 input.2).gates = n.gates := by
      unfold setInput
      split <;> rfl
    exact (ih _).trans hinput

theorem unlit_stepped (inputs : List (String × Bool)) (n : Netlist) :
    (n.stepped inputs).2.unlit = n.unlit :=
  (unlit_simulate _).trans (unlit_setInputs _ _)

/-- The wires of two names get the signals that are meant for them, and the others keep
theirs. -/
theorem isPowered_setInputs_pair {first second : String} {d : Layout} {i j : WireId}
    (h : n.layout [first, second] = d) (hinputs : d.inputs = [some i, some j]) (hne : i ≠ j)
    (step : Bool × Bool) :
    (n.setInputs (inputPair first second step)).wires.isPowered i = step.1 ∧
      (n.setInputs (inputPair first second step)).wires.isPowered j = step.2 ∧
      ∀ id, id ≠ i → id ≠ j →
        (n.setInputs (inputPair first second step)).wires.isPowered id = n.wires.isPowered id := by
  have hfound : [(n.input? first).map Wire.id, (n.input? second).map Wire.id] =
      [some i, some j] := (congrArg Layout.inputs h).trans hinputs
  obtain ⟨hi, hj⟩ : (n.input? first).map Wire.id = some i ∧
      (n.input? second).map Wire.id = some j := by
    simpa using hfound
  obtain ⟨a, b⟩ := step
  have hj' : ((n.setPowered i a).input? second).map Wire.id = some j :=
    (map_id_input?_of_unlit_eq (unlit_setPowered i a n) second).trans hj
  have hpair : (n.setInputs (inputPair first second (a, b))).wires =
      (n.wires.setPowered i a).setPowered j b := by
    show ((n.setInput first a).setInput second b).wires = _
    rw [setInput_eq hi, setInput_eq hj']
    rfl
  have hknown : ∀ {name : String} {id : WireId}, (n.input? name).map Wire.id = some id →
      (n.wires.find? id).isSome = true := by
    intro name id h
    obtain ⟨wire, hwire, rfl⟩ := Option.map_eq_some_iff.1 h
    rw [Arena.isSome_find?, decide_eq_true_iff]
    exact List.mem_map_of_mem (List.mem_reverse.1 (List.mem_of_find?_eq_some hwire))
  have hknown' : ((n.wires.setPowered i a).find? j).isSome = true := by
    rw [Arena.isSome_find?, Arena.setPowered, Arena.ids_adjust, ← Arena.isSome_find?]
    exact hknown hj
  rw [hpair]
  refine ⟨?_, ?_, fun id hidi hidj => ?_⟩
  · rw [Arena.isPowered_setPowered, if_neg hne, Arena.isPowered_setPowered, if_pos rfl, hknown hi,
      Bool.true_and]
  · rw [Arena.isPowered_setPowered, if_pos rfl, hknown', Bool.true_and]
  · rw [Arena.isPowered_setPowered, if_neg hidj, Arena.isPowered_setPowered, if_neg hidi]

theorem circuit_stepped (inputs : List (String × Bool)) (n : Netlist) :
    (n.stepped inputs).2.circuit = (n.setInputs inputs).circuit.simulate.2 :=
  circuit_simulate _

/-! ## Runs -/

theorem afterSteps_concat (steps : List (List (String × Bool))) (inputs : List (String × Bool))
    (n : Netlist) :
    n.afterSteps (steps ++ [inputs]) = ((n.afterSteps steps).stepped inputs).2 := by
  rw [afterSteps, List.foldl_append]
  rfl

theorem unlit_afterSteps (steps : List (List (String × Bool))) (n : Netlist) :
    (n.afterSteps steps).unlit = n.unlit := by
  induction steps generalizing n with
  | nil => rfl
  | cons inputs steps ih => exact (ih _).trans (unlit_stepped _ _)

/-- What holds of a netlist, and is kept by every step, holds after some steps.  It can tell
by which steps the netlist has come about. -/
theorem afterSteps_induction {α : Type} {inputs : α → List (String × Bool)}
    {P : List α → Netlist → Prop} (hstart : P [] n)
    (hstep : ∀ steps step m, m.unlit = n.unlit → P steps m →
      P (steps ++ [step]) (m.stepped (inputs step)).2)
    (steps : List α) : P steps (n.afterSteps (steps.map inputs)) := by
  induction steps using List.reverseRecOn with
  | nil => exact hstart
  | append_singleton steps step ih =>
    rw [List.map_append, List.map_singleton, afterSteps_concat]
    exact hstep steps step _ (unlit_afterSteps _ _) ih

end Netlist

end Gatework
