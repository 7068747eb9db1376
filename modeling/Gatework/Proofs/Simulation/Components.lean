import Gatework.Proofs.Simulation.Forward

/-!
# Components and their equations

A gate reads what the gates behind it in the list have put out in the same round, and what
the gates before it have put out in the round before.  If no wire is driven twice, then this
gives an equation for every gate, whether gates feed each other or not.

There are three groups.

* A `Component` is what a round needs to know of a gate apart from its state, and
  `Behaviour.level?` the signal that a gate without a memory puts out.
* `Component.Follows` are the equations of a round, gate by gate, and
  `Circuit.follows_signalAfter` says that every round solves them.
* A circuit settles if its signals are constant from some round on
  (`Circuit.simulate_of_constant`).
-/

namespace Gatework

/-! ## Components -/

/-- What a gate does, and between which wires. -/
structure Component where
  behaviour : Behaviour
  inputs : List WireId
  outputs : List WireId
deriving DecidableEq

/-- A gate without its name, place and state. -/
def Gate.component (gate : Gate) : Component := ⟨gate.behaviour, gate.inputs, gate.outputs⟩

theorem Gate.flatMap_outputs_component (gates : List Gate) :
    (gates.map component).flatMap Component.outputs = gates.flatMap outputs :=
  List.flatMap_map ..

/-- Components that feed forward are gates that do. -/
theorem Gate.forward_of_components {gates : List Gate} {components : List Component}
    (hcomponents : gates.map component = components)
    (h : components.Pairwise fun component later =>
      ∀ wire ∈ later.outputs, wire ∉ component.inputs) : Forward gates := by
  rw [← hcomponents, List.pairwise_map] at h
  exact h

/-- The signal that a gate puts out for those of its inputs, if it computes one and remembers
nothing. -/
def Behaviour.level? : Behaviour → List Bool → Option Bool
  | .constant powered, _ => some powered
  | .conj, signal :: signals => some (signal && signals.all id)
  | .disj, signal :: signals => some (signal || signals.any id)
  | .negation, signal :: _ => some !signal
  | .relay, signal :: _ => some signal
  | _, _ => none

theorem Behaviour.drives_react_of_level? {α : Type} {behaviour : Behaviour} {read : α → Bool}
    {pins : Pins α} {level : Bool} (h : behaviour.level? (pins.inputs.map read) = some level)
    (state : String) :
    (behaviour.react read state pins).drives = pins.outputs.zip [level] := by
  obtain ⟨inputs, outputs⟩ := pins
  cases behaviour with
  | constant powered =>
    cases h
    rfl
  | conj | disj | negation | relay =>
    cases inputs with
    | nil => cases h
    | cons input inputs =>
      cases h
      simp [react, Pins.driving, Pins.reads]
  | switch | led | flipFlop | idle => cases h

/-! ## Equations of a round -/

namespace Component

/-- The equations of a round between the signals before it and after it.  A gate reads the
new signals of the wires that the gates behind it drive. -/
def Follows (before after : WireId → Bool) : List Component → Prop
  | [] => True
  | component :: later =>
    (∀ wire ∈ component.outputs.head?,
      ∀ level ∈ component.behaviour.level? (component.inputs.map fun id =>
        if id ∈ later.flatMap outputs then after id else before id), after wire = level) ∧
    Follows before after later

end Component

namespace Circuit

/-- The signals of a wire that the gates of a list have in front of them, when the gates
behind them have acted. -/
theorem isPowered_act_eq_ite {gates : List Gate} {wires : Arena} {after : WireId → Bool}
    (hafter : ∀ id ∈ gates.flatMap Gate.outputs, after id = (act gates wires).wires.isPowered id)
    (id : WireId) : (act gates wires).wires.isPowered id =
      if id ∈ gates.flatMap Gate.outputs then after id else wires.isPowered id := by
  split
  · next hid => exact (hafter id hid).symm
  · next hid =>
    refine isPowered_act_of_not_driven (fun gate hgate hdriven => hid ?_) wires
    exact List.mem_flatMap.2 ⟨gate, hgate, Gate.mem_outputs_of_mem_driven hdriven⟩

theorem follows_act {gates : List Gate} {wires : Arena} {after : WireId → Bool}
    (hnodup : (gates.flatMap Gate.outputs).Nodup)
    (hknown : ∀ id ∈ gates.flatMap Gate.outputs, id ∈ wires.ids)
    (hafter : ∀ id ∈ gates.flatMap Gate.outputs, after id = (act gates wires).wires.isPowered id) :
    Component.Follows wires.isPowered after (gates.map Gate.component) := by
  induction gates with
  | nil => trivial
  | cons gate later ih =>
    rw [List.flatMap_cons] at hknown hafter
    rw [List.flatMap_cons, List.nodup_append] at hnodup
    rw [List.forall_mem_append] at hknown hafter
    rw [act_cons] at hafter
    have hlater : ∀ id ∈ later.flatMap Gate.outputs,
        after id = (act later wires).wires.isPowered id := by
      intro id hid
      rw [hafter.2 id hid, Arena.isPowered_drive_of_not_mem]
      rw [Gate.map_fst_react]
      exact fun hdriven => hnodup.2.2 id (Gate.mem_outputs_of_mem_driven hdriven) id hid rfl
    refine ⟨fun wire hwire level hlevel => ?_, ih hnodup.2.1 hknown.2 hlater⟩
    obtain ⟨outputs, houtputs⟩ := List.head?_eq_some_iff.1 hwire
    have hmem : wire ∈ gate.outputs := List.mem_of_mem_head? hwire
    have hreads : (fun id => if id ∈ (later.map Gate.component).flatMap Component.outputs then
        after id else wires.isPowered id) = (act later wires).wires.isPowered := by
      rw [Gate.flatMap_outputs_component]
      exact (funext fun id => isPowered_act_eq_ite hlater id).symm
    rw [hreads] at hlevel
    have hdrives : (gate.react (act later wires).wires.isPowered).drives =
        gate.outputs.zip [level] :=
      Behaviour.drives_react_of_level? hlevel gate.state
    have hdrive : (wire, level) ∈ (gate.react (act later wires).wires.isPowered).drives := by
      rw [hdrives, show gate.outputs = wire :: outputs from houtputs]
      exact List.mem_cons_self
    rw [hafter.1 wire hmem, Arena.isPowered_drive_of_mem ?_ hdrive ?_]
    · rw [Gate.map_fst_react]
      exact Gate.nodup_driven hnodup.1
    · rw [Arena.ids_eq_of_dark_eq (dark_act later wires)]
      exact hknown.1 wire hmem

variable {c : Circuit} {components : List Component}

theorem map_component_iterate (c : Circuit) (k : Nat) :
    (round^[k] c).gates.map Gate.component = c.gates.map Gate.component := by
  have hbare : ∀ gates : List Gate,
      gates.map Gate.component = (gates.map Gate.bare).map Gate.component := by
    intro gates
    rw [List.map_map]
    rfl
  rw [hbare, map_bare_iterate_round, ← hbare]

/-- There are five rounds for each gate. -/
theorem lt_roundLimit (hcomponents : c.gates.map Gate.component = components) {k : Nat}
    (hk : k < 5 * components.length) : k < c.roundLimit := by
  rw [← hcomponents, List.length_map] at hk
  unfold roundLimit
  omega

/-- Every round solves the equations of the gates. -/
theorem follows_signalAfter (hcomponents : c.gates.map Gate.component = components)
    (hnodup : (components.flatMap Component.outputs).Nodup)
    (hknown : ∀ id ∈ components.flatMap Component.outputs, id ∈ c.wires.ids) (k : Nat) :
    Component.Follows (fun id => c.signalAfter id k) (fun id => c.signalAfter id (k + 1))
      components := by
  subst hcomponents
  rw [← map_component_iterate c k, Gate.flatMap_outputs_component] at hnodup hknown
  rw [← map_component_iterate c k]
  refine follows_act hnodup ?_ fun id _ => ?_
  · rwa [Arena.ids_eq_of_dark_eq (dark_iterate_round c k)]
  · rw [signalAfter, Function.iterate_succ_apply']
    rfl

/-- A wire that no gate has as an output keeps its signal. -/
theorem signalAfter_of_not_mem_outputs (hcomponents : c.gates.map Gate.component = components)
    {id : WireId} (hid : id ∉ components.flatMap Component.outputs) (k : Nat) :
    c.signalAfter id k = c.wires.isPowered id := by
  refine (sameInputs_iterate c k).inputs id fun gate hgate hout => hid ?_
  rw [← hcomponents, Gate.flatMap_outputs_component]
  exact List.mem_flatMap.2 ⟨gate, hgate, hout⟩

/-! ## Constant signals -/

/-- A circuit whose driven wires are constant from some round on settles, if it has rounds
enough, and has the signals of this round in the end. -/
theorem simulate_of_constant (hcomponents : c.gates.map Gate.component = components) {settled : Nat}
    (hlimit : settled < c.roundLimit)
    (hconstant : ∀ id ∈ components.flatMap Component.outputs, ∀ k, settled ≤ k →
      c.signalAfter id k = c.signalAfter id settled) :
    c.simulate.1.converged = true ∧
      ∀ id, c.simulate.2.wires.isPowered id = c.signalAfter id settled := by
  have hall : ∀ id k, settled ≤ k → c.signalAfter id k = c.signalAfter id settled := by
    intro id k hk
    by_cases hid : id ∈ components.flatMap Component.outputs
    · exact hconstant id hid k hk
    · rw [signalAfter_of_not_mem_outputs hcomponents hid,
        signalAfter_of_not_mem_outputs hcomponents hid]
  have hrest : AtRest (round^[settled] c) := by
    refine Arena.eq_of_dark_eq (dark_act _ _) fun id => ?_
    have hnext := hall id (settled + 1) (Nat.le_succ settled)
    rw [signalAfter, Function.iterate_succ_apply'] at hnext
    exact hnext
  have hconverged : c.simulate.1.converged = true := (simulate_of_atRest hlimit hrest).1
  refine ⟨hconverged, fun id => ?_⟩
  obtain ⟨last, hlast⟩ := exists_iterate_eq_of_converged hconverged
  rw [← hlast (max last settled) (Nat.le_max_left _ _)]
  exact hall id _ (Nat.le_max_right _ _)

end Circuit

end Gatework
