import Gatework.Proofs.Simulation.FixedPoint
import Mathlib.Data.List.Forall2

/-!
# The equations of the gates

Every gate of a netlist is an equation between its state and the signals of its
wires.  A simulation that settles has solved them, if no wire is driven twice.

There are four groups.

* `Gate.Satisfied` is the equation of a gate, kind by kind.
* A round that leaves the wires as they were has changed none of them on the way,
  since a wire that is driven once cannot change back.  So every gate has acted
  on the final signals (`balanced_of_act_eq`).
* A gate that has acted on the final signals, and finds its answer on its wires,
  satisfies its equation (`Balanced.satisfied`).
* `Circuit.SameInputs` compares circuits that differ in what a simulation
  computes only.  If none of them solves the equations, then the simulation does
  not settle (`equations_of_nodup_outputs`).
-/

namespace Gatework

/-! ## Equations -/

namespace Gate

/-- The signal of an input.  What is missing is unpowered. -/
def input (wires : Arena) (place : Nat) (gate : Gate) : Bool :=
  gate.inputs[place]?.any wires.isPowered

/-- Whether an output has a signal, if it is there and is a wire of the arena. -/
def Shows (wires : Arena) (place : Nat) (signal : Bool) (gate : Gate) : Prop :=
  ∀ wire, gate.outputs[place]? = some wire → wire ∈ wires.ids → wires.isPowered wire = signal

/-- The digit for a level. -/
def digit (level : Bool) : Char := if level then '1' else '0'

/-- The equation of a flip-flop: its state holds its clock and its bit, set wins
over reset, and the outputs show the bit and its negation. -/
def ShowsBit (wires : Arena) (gate : Gate) : Prop :=
  ∃ bit : Bool, gate.state.toList = [digit (gate.input wires 0), digit bit] ∧
    (gate.input wires 2 = true → bit = true) ∧
    (gate.input wires 2 = false → gate.input wires 3 = true → bit = false) ∧
    gate.Shows wires 0 bit ∧ gate.Shows wires 1 !bit

/-- The equation of a gate. -/
def Satisfied (wires : Arena) (gate : Gate) : Prop :=
  match gate.kind with
  | .conj => gate.inputs ≠ [] → gate.Shows wires 0 (gate.inputs.all wires.isPowered)
  | .disj => gate.inputs ≠ [] → gate.Shows wires 0 (gate.inputs.any wires.isPowered)
  | .negation => gate.inputs ≠ [] → gate.Shows wires 0 !(gate.input wires 0)
  | .blockInput | .blockOutput => gate.inputs ≠ [] → gate.Shows wires 0 (gate.input wires 0)
  | .source => gate.Shows wires 0 true
  | .ground => gate.Shows wires 0 false
  | .builtin =>
    match gate.builtin? with
    | some .toggle | some .momentary =>
      ∀ wire ∈ gate.outputs, wire ∈ wires.ids → wires.isPowered wire = (gate.state == "on")
    | some .led => gate.state = if gate.input wires 0 then "on" else "off"
    | some .tFlipFlop => gate.ShowsBit wires
    | some .wave | none => True

/-- Whether a gate would answer with what it shows already. -/
structure Balanced (wires : Arena) (gate : Gate) : Prop where
  state : (gate.react wires.isPowered).state = gate.state
  drives : ∀ drive ∈ (gate.react wires.isPowered).drives, drive.1 ∈ wires.ids →
    wires.isPowered drive.1 = drive.2

end Gate

/-! ## Rounds that change nothing -/

namespace Circuit

/-- If a round leaves the wires as they were, then they are so before the last
gate has acted, when no gate drives a wire of another. -/
theorem act_eq_of_act_cons_eq {gate : Gate} {later : List Gate} {wires : Arena}
    (hnodup : ((gate :: later).flatMap Gate.outputs).Nodup)
    (h : (act (gate :: later) wires).wires = wires) : (act later wires).wires = wires := by
  refine Arena.eq_of_dark_eq (dark_act later wires) fun id => ?_
  rw [List.flatMap_cons, List.nodup_append] at hnodup
  by_cases hid : id ∈ gate.driven
  · -- no later gate has touched the wire yet
    refine isPowered_act_of_not_driven (fun g hg hdriven => ?_) wires
    exact hnodup.2.2 id (Gate.mem_outputs_of_mem_driven hid) id
      (List.mem_flatMap.2 ⟨g, hg, Gate.mem_outputs_of_mem_driven hdriven⟩) rfl
  · -- the gate does not touch the wire any more
    rw [act_cons] at h
    conv_rhs => rw [← h]
    rw [Arena.isPowered_drive_of_not_mem]
    rwa [Gate.map_fst_react]

theorem balanced_of_act_eq {gates : List Gate} {wires : Arena}
    (hnodup : (gates.flatMap Gate.outputs).Nodup) (h : (act gates wires).wires = wires) :
    ∀ gate ∈ (act gates wires).gates, gate.Balanced wires := by
  induction gates with
  | nil => exact fun gate hgate => absurd hgate List.not_mem_nil
  | cons first later ih =>
    have hlater := act_eq_of_act_cons_eq hnodup h
    rw [List.flatMap_cons, List.nodup_append] at hnodup
    rw [act_cons, hlater] at h
    have hkeep : wires.drive (first.react wires.isPowered).drives = wires := h
    intro gate hgate
    rw [act_cons, hlater] at hgate
    rcases List.mem_cons.1 hgate with rfl | hgate
    · have hagain : Gate.react wires.isPowered
          { first with state := (first.react wires.isPowered).state } =
            first.react wires.isPowered := first.react_again wires.isPowered
      refine ⟨by rw [hagain], fun drive hdrive hid => ?_⟩
      rw [hagain] at hdrive
      have honce : ((first.react wires.isPowered).drives.map Prod.fst).Nodup := by
        rw [Gate.map_fst_react]
        exact Gate.nodup_driven hnodup.1
      have hput := Arena.isPowered_drive_of_mem honce hdrive hid
      rwa [hkeep] at hput
    · exact ih hnodup.2.1 hlater gate hgate

end Circuit

/-! ## Balanced gates -/

namespace Gate

namespace Balanced

variable {wires : Arena} {gate : Gate}

/-- A balanced gate that answers with a list of signals shows them. -/
theorem shows (h : gate.Balanced wires) (signals : List Bool)
    (hreact : (gate.react wires.isPowered).drives = gate.outputs.zip signals) {place : Nat}
    {signal : Bool} (hsignal : signals[place]? = some signal) :
    gate.Shows wires place signal := by
  intro wire hwire hid
  have hmem : (wire, signal) ∈ gate.outputs.zip signals := by
    apply List.mem_of_getElem? (i := place)
    rw [List.getElem?_zip_eq_some]
    exact ⟨hwire, hsignal⟩
  rw [← hreact] at hmem
  exact h.drives _ hmem hid

/-- The same for a gate that computes one signal from its inputs. -/
theorem shows_of_inputs (h : gate.Balanced wires) {signal : Bool}
    (hreact : (gate.react wires.isPowered).drives =
      gate.outputs.zip (if gate.inputs.isEmpty then [] else [signal]))
    (hinputs : gate.inputs ≠ []) : gate.Shows wires 0 signal := by
  have hne : gate.inputs.isEmpty = false := by simpa using hinputs
  rw [hne] at hreact
  exact h.shows [signal] hreact rfl

theorem showsBit (h : gate.Balanced wires) (hflipFlop : gate.behaviour = .flipFlop) :
    gate.ShowsBit wires := by
  obtain ⟨bit, hbit⟩ : ∃ bit, flipFlopBit wires.isPowered gate.state gate.pins = bit := ⟨_, rfl⟩
  have hreact : gate.react wires.isPowered =
      gate.pins.driving (flipFlopState (gate.input wires 0) bit) [bit, !bit] := by
    rw [react, hflipFlop, ← hbit]
    rfl
  have hstate : gate.state = flipFlopState (gate.input wires 0) bit := by
    have h' := h.state
    rw [hreact] at h'
    exact h'.symm
  have hdrives := congrArg Reaction.drives hreact
  refine ⟨bit, ?_, ?_, ?_, h.shows _ hdrives rfl, h.shows _ hdrives rfl⟩
  · rw [hstate]
    exact String.toList_ofList
  · intro hset
    have hset' : gate.pins.reads wires.isPowered 2 = true := hset
    rw [← hbit, flipFlopBit, hset']
    rfl
  · intro hset hreset
    have hset' : gate.pins.reads wires.isPowered 2 = false := hset
    have hreset' : gate.pins.reads wires.isPowered 3 = true := hreset
    rw [← hbit, flipFlopBit, hset', hreset']
    rfl

/-- A balanced gate satisfies its equation. -/
theorem satisfied (h : gate.Balanced wires) : gate.Satisfied wires := by
  unfold Satisfied
  split
  case h_1 hkind | h_2 hkind | h_3 hkind | h_4 hkind | h_5 hkind =>
    refine h.shows_of_inputs ?_
    rw [react, behaviour, hkind]
    rfl
  case h_6 hkind | h_7 hkind =>
    refine h.shows [_] ?_ rfl
    rw [react, behaviour, hkind]
    rfl
  case h_8 hkind =>
    split
    case h_1 hname | h_2 hname =>
      intro wire hwire
      refine h.drives (wire, gate.state == "on") ?_
      rw [react, behaviour, hkind]
      simp only [hname]
      exact List.mem_map.2 ⟨wire, hwire, rfl⟩
    case h_3 hname =>
      rw [← h.state, react, behaviour, hkind]
      simp only [hname]
      rfl
    case h_4 hname =>
      refine h.showsBit ?_
      rw [behaviour, hkind]
      simp only [hname]
    case h_5 | h_6 => trivial

end Balanced

/-- A gate in another state, if it remembers any. -/
def SameUpToMemory (g h : Gate) : Prop :=
  h.bare = g.bare ∧ (g.behaviour.remembers = false → h.state = g.state)

end Gate

/-! ## Solutions -/

namespace Circuit

/-- A circuit that differs at most in what a simulation computes: the signals of
the wires that gates list as outputs, and what gates remember. -/
structure SameInputs (c d : Circuit) : Prop where
  wires : d.wires.dark = c.wires.dark
  inputs : ∀ id, (∀ gate ∈ c.gates, id ∉ gate.outputs) →
    d.wires.isPowered id = c.wires.isPowered id
  gates : List.Forall₂ Gate.SameUpToMemory c.gates d.gates

/-- Whether the equations of all gates hold. -/
def Solved (c : Circuit) : Prop := ∀ gate ∈ c.gates, gate.Satisfied c.wires

theorem forall₂_sameUpToMemory_act {gates gates' : List Gate}
    (h : List.Forall₂ Gate.SameUpToMemory gates gates') (wires : Arena) :
    List.Forall₂ Gate.SameUpToMemory gates (act gates' wires).gates := by
  induction h with
  | nil => exact .nil
  | @cons g g' gates gates' hg _ ih =>
    rw [act_cons]
    refine .cons ⟨hg.1, fun hforgets => ?_⟩ ih
    have hbehaviour : g'.behaviour = g.behaviour := by
      show g'.bare.behaviour = g.bare.behaviour
      rw [hg.1]
    rw [← hg.2 hforgets]
    rw [← hbehaviour] at hforgets
    exact Behaviour.state_react hforgets _ _ _

theorem exists_of_mem_forall₂ {α β : Type} {R : α → β → Prop} {as : List α} {bs : List β}
    (h : List.Forall₂ R as bs) {b : β} (hb : b ∈ bs) : ∃ a ∈ as, R a b := by
  induction h with
  | nil => exact absurd hb List.not_mem_nil
  | cons hab _ ih =>
    rcases List.mem_cons.1 hb with rfl | hb
    · exact ⟨_, List.mem_cons_self, hab⟩
    · obtain ⟨a, ha, hab⟩ := ih hb
      exact ⟨a, List.mem_cons_of_mem _ ha, hab⟩

/-- A round keeps the inputs of a circuit. -/
theorem SameInputs.round {c d : Circuit} (h : SameInputs c d) : SameInputs c d.round where
  wires := by rw [round_eq, dark_act, h.wires]
  inputs := by
    intro id hid
    rw [round_eq, isPowered_act_of_not_driven, h.inputs id hid]
    intro gate' hgate' hdriven
    obtain ⟨gate, hgate, hsame⟩ := exists_of_mem_forall₂ h.gates hgate'
    rw [Gate.driven_eq_of_bare_eq hsame.1] at hdriven
    exact hid gate hgate (Gate.mem_outputs_of_mem_driven hdriven)
  gates := forall₂_sameUpToMemory_act h.gates d.wires

theorem SameInputs.refl (c : Circuit) : SameInputs c c where
  wires := rfl
  inputs := fun _ _ => rfl
  gates := List.forall₂_same.2 fun _ _ => ⟨rfl, fun _ => rfl⟩

theorem sameInputs_iterate (c : Circuit) (k : Nat) : SameInputs c (round^[k] c) := by
  induction k with
  | zero => exact .refl c
  | succ k ih =>
    rw [Function.iterate_succ_apply']
    exact ih.round

/-- No simulation drives a wire twice in a round if the outputs differ. -/
theorem nodup_outputs_iterate {c : Circuit} (h : (c.gates.flatMap Gate.outputs).Nodup)
    (k : Nat) : ((round^[k] c).gates.flatMap Gate.outputs).Nodup := by
  have hbare : ∀ gates : List Gate,
      gates.flatMap Gate.outputs = (gates.map Gate.bare).flatMap Gate.outputs := by
    intro gates
    rw [List.flatMap_map]
    rfl
  rwa [hbare, map_bare_iterate_round, ← hbare]

/-- A circuit that drives no wire twice balances all gates when it settles. -/
theorem balanced_of_converged {c : Circuit} (hnodup : (c.gates.flatMap Gate.outputs).Nodup)
    (h : c.simulate.1.converged = true) :
    ∀ gate ∈ c.simulate.2.gates, gate.Balanced c.simulate.2.wires := by
  obtain ⟨k, hlast, hrest⟩ := exists_atRest_of_converged h
  have hwires : (round^[k] c).round.wires = (round^[k] c).wires := hrest
  rw [hlast, hwires]
  exact balanced_of_act_eq (nodup_outputs_iterate hnodup k) hrest

theorem verdict_of_not_converged {c : Circuit} (h : c.simulate.1.converged = false) :
    c.simulate.1 = ⟨c.roundLimit, false⟩ := by
  unfold simulate at h ⊢
  rcases settle_cases 0 c.roundLimit c with ⟨k, _, heq, _⟩ | ⟨heq, _⟩
  · rw [heq] at h
    exact absurd h.symm Bool.false_ne_true
  · rw [heq, Nat.zero_add]

theorem sameInputs_simulate (c : Circuit) : SameInputs c c.simulate.2 := by
  unfold simulate
  rcases settle_cases 0 c.roundLimit c with ⟨k, _, heq, _⟩ | ⟨heq, _⟩
  · rw [heq]
    exact (sameInputs_iterate c k).round
  · rw [heq]
    exact sameInputs_iterate c c.roundLimit

end Circuit

namespace Netlist

/-- If no wire is listed as an output twice, then a netlist that settles solves
the equations of its gates.  A netlist whose equations have no solution with the
given inputs takes all rounds that it may take, and does not settle. -/
theorem equations_of_nodup_outputs (n : Netlist)
    (hnodup : (n.gates.flatMap Gate.outputs).Nodup) :
    (n.simulate.1.converged = true →
      ∀ gate ∈ n.simulate.2.gates, gate.Satisfied n.simulate.2.wires) ∧
    ((∀ d, n.circuit.SameInputs d → ¬d.Solved) →
      n.simulate.1.converged = false ∧
        n.simulate.1.rounds = max 1 (5 * (n.wires.size + n.gates.length))) := by
  have hsolved : n.circuit.simulate.1.converged = true → n.circuit.simulate.2.Solved :=
    fun h gate hgate => (Circuit.balanced_of_converged hnodup h gate hgate).satisfied
  rw [simulate_fst]
  refine ⟨fun h => ?_, fun h => ?_⟩
  · rw [← circuit_simulate] at hsolved
    exact hsolved h
  · have hopen : n.circuit.simulate.1.converged = false := by
      rw [← Bool.not_eq_true]
      exact fun hconverged => h _ n.circuit.sameInputs_simulate (hsolved hconverged)
    refine ⟨hopen, ?_⟩
    rw [Circuit.verdict_of_not_converged hopen]
    rfl

/-- A latch that is being set: two gates that negate a disjunction, each of which
reads the other. -/
def latching : Netlist :=
  .ofParts
    [⟨⟨1⟩, .disj, "", [⟨2⟩, ⟨6⟩], [⟨3⟩], .root, ""⟩,
      ⟨⟨2⟩, .negation, "", [⟨3⟩], [⟨4⟩], .root, ""⟩,
      ⟨⟨3⟩, .disj, "", [⟨1⟩, ⟨4⟩], [⟨5⟩], .root, ""⟩,
      ⟨⟨4⟩, .negation, "", [⟨5⟩], [⟨6⟩], .root, ""⟩]
    [⟨⟨1⟩, none, none, none, true⟩, .fresh ⟨2⟩ none, .fresh ⟨3⟩ none, .fresh ⟨4⟩ none,
      .fresh ⟨5⟩ none, .fresh ⟨6⟩ none]

/-- A gate that negates itself. -/
def inverting : Netlist :=
  .ofParts [⟨⟨1⟩, .negation, "", [⟨1⟩], [⟨1⟩], .root, ""⟩] [.fresh ⟨1⟩ none]

theorem not_solved_inverting (d : Circuit) (h : inverting.circuit.SameInputs d) :
    ¬d.Solved := by
  obtain ⟨hwires, -, hgates⟩ := h
  obtain ⟨gate, rest, hgate, -, heq⟩ := List.forall₂_cons_left_iff.1 hgates
  have hkind : gate.kind = .negation := congrArg Gate.kind hgate.1
  have hinputs : gate.inputs = [⟨1⟩] := Gate.inputs_eq_of_bare_eq hgate.1
  have houtputs : gate.outputs = [⟨1⟩] := Gate.outputs_eq_of_bare_eq hgate.1
  have hid : (⟨1⟩ : WireId) ∈ d.wires.ids := by
    rw [Arena.ids_eq_of_dark_eq hwires]
    decide
  intro hsolved
  have hequation := hsolved gate (by rw [heq]; exact List.mem_cons_self)
  unfold Gate.Satisfied at hequation
  rw [hkind] at hequation
  have hshows := hequation (by rw [hinputs]; exact List.cons_ne_nil _ _) ⟨1⟩
    (by rw [houtputs]; rfl) hid
  rw [Gate.input, hinputs] at hshows
  have hself : d.wires.isPowered ⟨1⟩ = !d.wires.isPowered ⟨1⟩ := hshows
  simp at hself

theorem equations_latching_inverting :
    ((latching.gates.flatMap Gate.outputs).Nodup ∧ latching.simulate.1.converged = true ∧
      ∀ gate ∈ latching.simulate.2.gates, gate.Satisfied latching.simulate.2.wires) ∧
    ((inverting.gates.flatMap Gate.outputs).Nodup ∧
      inverting.simulate.1.converged = false ∧ inverting.simulate.1.rounds = 10) := by
  have hlatching : (latching.gates.flatMap Gate.outputs).Nodup := by decide
  have hinverting : (inverting.gates.flatMap Gate.outputs).Nodup := by decide
  have hconverged : latching.simulate.1.converged = true := by
    rw [simulate_fst]
    decide
  exact ⟨⟨hlatching, hconverged, (equations_of_nodup_outputs latching hlatching).1 hconverged⟩,
    hinverting, (equations_of_nodup_outputs inverting hinverting).2 not_solved_inverting⟩

end Netlist

end Gatework
