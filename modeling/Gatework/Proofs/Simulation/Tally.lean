import Gatework.Proofs.Simulation.FlipFlop
import Gatework.Proofs.Simulation.Ripple
import Gatework.Proofs.Simulation.Steps

/-!
# Counters with a common clock

Flip-flops with a common clock count its edges if each of them toggles when all bits below
it are on.  All of them see an edge in the same round, the second one, and what they read
as their toggles in this round are still the bits from before the edge.

There are four groups.

* `Chain.increment` adds one to the bits of a number.
* `tally` is the layout of a counter of four bits, and `Tallies` what it shows and remembers
  between two steps.
* One simulation, in which the clock and the reset may have changed
  (`Tallies.simulate`).
* Runs.  `tick` is what a step does to the number that is counted, and
  `Netlist.reading_of_tally` the result.
-/

namespace Gatework

/-! ## Adding one -/

namespace Chain

/-- The bits of a number to which a carry has been added. -/
def increment : Bool → List Bool → List Bool
  | _, [] => []
  | carry, bit :: bits => (carry ^^ bit) :: increment (carry && bit) bits

theorem increment_false (bits : List Bool) : increment false bits = bits := by
  induction bits with
  | nil => rfl
  | cons bit bits ih => rw [increment, Bool.false_xor, Bool.false_and, ih]

/-- A carry adds one, modulo the power of two. -/
theorem number_increment (bits : List Bool) :
    number (increment true bits) = (number bits + 1) % 2 ^ bits.length := by
  induction bits with
  | nil => rfl
  | cons bit bits ih =>
    have hlt := number_lt bits
    rw [increment, number_cons, number_cons, List.length_cons, pow_succ', Bool.true_xor,
      Bool.true_and]
    cases bit with
    | false =>
      rw [increment_false, Nat.mod_eq_of_lt (by rw [Bool.toNat_false]; omega), Bool.not_false,
        Bool.toNat_true, Bool.toNat_false]
      omega
    | true =>
      have hwhole : true.toNat + 2 * number bits + 1 = 2 * (number bits + 1) := by
        rw [Bool.toNat_true]
        omega
      rw [ih, hwhole, Nat.mul_mod_mul_left, Bool.not_true, Bool.toNat_false, Nat.zero_add]

end Chain

/-! ## A counter of four bits -/

/-- Wires one and two, passed in on three and four, are the clock and the reset.  The bits are
seven, ten, fourteen and nineteen. -/
def tally : Layout where
  components :=
    [⟨.relay, [⟨1⟩], [⟨3⟩]⟩, ⟨.relay, [⟨2⟩], [⟨4⟩]⟩, ⟨.constant true, [], [⟨5⟩]⟩,
      ⟨.constant false, [], [⟨6⟩]⟩, ⟨.flipFlop, [⟨3⟩, ⟨5⟩, ⟨6⟩, ⟨4⟩], [⟨7⟩, ⟨8⟩]⟩,
      ⟨.constant false, [], [⟨9⟩]⟩, ⟨.flipFlop, [⟨3⟩, ⟨7⟩, ⟨9⟩, ⟨4⟩], [⟨10⟩, ⟨11⟩]⟩,
      ⟨.conj, [⟨7⟩, ⟨10⟩], [⟨12⟩]⟩, ⟨.constant false, [], [⟨13⟩]⟩,
      ⟨.flipFlop, [⟨3⟩, ⟨12⟩, ⟨13⟩, ⟨4⟩], [⟨14⟩, ⟨15⟩]⟩, ⟨.conj, [⟨7⟩, ⟨10⟩], [⟨16⟩]⟩,
      ⟨.conj, [⟨16⟩, ⟨14⟩], [⟨17⟩]⟩, ⟨.constant false, [], [⟨18⟩]⟩,
      ⟨.flipFlop, [⟨3⟩, ⟨17⟩, ⟨18⟩, ⟨4⟩], [⟨19⟩, ⟨20⟩]⟩, ⟨.relay, [⟨7⟩], [⟨21⟩]⟩,
      ⟨.relay, [⟨10⟩], [⟨22⟩]⟩, ⟨.relay, [⟨14⟩], [⟨23⟩]⟩, ⟨.relay, [⟨19⟩], [⟨24⟩]⟩]
  ids := [⟨24⟩, ⟨23⟩, ⟨22⟩, ⟨21⟩, ⟨20⟩, ⟨19⟩, ⟨18⟩, ⟨17⟩, ⟨16⟩, ⟨15⟩, ⟨14⟩, ⟨13⟩, ⟨12⟩, ⟨11⟩,
    ⟨10⟩, ⟨9⟩, ⟨8⟩, ⟨7⟩, ⟨6⟩, ⟨5⟩, ⟨4⟩, ⟨3⟩, ⟨2⟩, ⟨1⟩]
  inputs := [some ⟨1⟩, some ⟨2⟩]
  outputs := [⟨21⟩, ⟨22⟩, ⟨23⟩, ⟨24⟩]

/-- The bits, the lowest first, each with the toggle of its flip-flop. -/
def tallyToggles : List (WireId × WireId) :=
  [(⟨7⟩, ⟨5⟩), (⟨10⟩, ⟨7⟩), (⟨14⟩, ⟨12⟩), (⟨19⟩, ⟨17⟩)]

/-- The bits. -/
def tallyBits : List WireId := tallyToggles.map Prod.fst

/-- The wires that would set the bits. -/
def tallySets : List WireId := [⟨6⟩, ⟨9⟩, ⟨13⟩, ⟨18⟩]

theorem exists_flipFlop_tally {bit toggle : WireId} (h : (bit, toggle) ∈ tallyToggles) :
    ∃ set ∈ tallySets, ∃ inverse,
      ⟨.flipFlop, [⟨3⟩, toggle, set, ⟨4⟩], [bit, inverse]⟩ ∈ tally.components := by
  simp only [tallyToggles, List.mem_cons, List.not_mem_nil, or_false, Prod.mk.injEq] at h
  rcases h with ⟨rfl, rfl⟩ | ⟨rfl, rfl⟩ | ⟨rfl, rfl⟩ | ⟨rfl, rfl⟩
  · exact ⟨⟨6⟩, by decide, ⟨8⟩, by decide⟩
  · exact ⟨⟨9⟩, by decide, ⟨11⟩, by decide⟩
  · exact ⟨⟨13⟩, by decide, ⟨15⟩, by decide⟩
  · exact ⟨⟨18⟩, by decide, ⟨20⟩, by decide⟩

theorem forward_tally : tally.components.Pairwise fun component later =>
    ∀ wire ∈ later.outputs, wire ∉ component.inputs := by
  unfold tally
  decide

/-- The equations of a round, for the gates that remember nothing. -/
theorem follows_tally {before after : WireId → Bool}
    (h : Component.Follows before after tally.components) :
    after ⟨3⟩ = before ⟨1⟩ ∧ after ⟨4⟩ = before ⟨2⟩ ∧ after ⟨5⟩ = true ∧
      (∀ id ∈ tallySets, after id = false) ∧ after ⟨12⟩ = (before ⟨7⟩ && before ⟨10⟩) ∧
      after ⟨16⟩ = (before ⟨7⟩ && before ⟨10⟩) ∧ after ⟨17⟩ = (before ⟨16⟩ && before ⟨14⟩) ∧
      tally.outputs.map after = tallyBits.map before := by
  have hgates : after ⟨3⟩ = before ⟨1⟩ ∧ after ⟨4⟩ = before ⟨2⟩ ∧ after ⟨5⟩ = true ∧
      after ⟨6⟩ = false ∧ after ⟨9⟩ = false ∧ after ⟨12⟩ = (before ⟨7⟩ && before ⟨10⟩) ∧
      after ⟨13⟩ = false ∧ after ⟨16⟩ = (before ⟨7⟩ && before ⟨10⟩) ∧
      after ⟨17⟩ = (before ⟨16⟩ && before ⟨14⟩) ∧ after ⟨18⟩ = false ∧ after ⟨21⟩ = before ⟨7⟩ ∧
      after ⟨22⟩ = before ⟨10⟩ ∧ after ⟨23⟩ = before ⟨14⟩ ∧ after ⟨24⟩ = before ⟨19⟩ := by
    simpa [tally, Component.Follows, Behaviour.level?] using h
  obtain ⟨h3, h4, h5, h6, h9, h12, h13, h16, h17, h18, h21, h22, h23, h24⟩ := hgates
  refine ⟨h3, h4, h5, ?_, h12, h16, h17, ?_⟩
  · rw [tallySets, List.forall_mem_cons, List.forall_mem_cons, List.forall_mem_cons,
      List.forall_mem_singleton]
    exact ⟨h6, h9, h13, h18⟩
  · simp only [tally, tallyBits, tallyToggles, List.map_cons, List.map_nil, h21, h22, h23, h24]

/-- A counter between two steps.  All flip-flops have seen the level of the clock, and show
the bits that they hold. -/
structure Tallies (level : Bool) (c : Circuit) : Prop where
  components : c.gates.map Gate.component = tally.components
  ids : c.wires.ids = tally.ids
  clock : c.wires.isPowered ⟨3⟩ = level
  sets : ∀ id ∈ tallySets, c.wires.isPowered id = false
  pair : c.wires.isPowered ⟨16⟩ = (c.wires.isPowered ⟨7⟩ && c.wires.isPowered ⟨10⟩)
  cleared : c.wires.isPowered ⟨4⟩ = true → ∀ bit ∈ tallyBits, c.wires.isPowered bit = false
  flips : ∀ flip ∈ c.gates, flip.behaviour = .flipFlop → stateBit flip.state 0 = level ∧
    ∀ bit ∈ flip.outputs.head?, stateBit flip.state 1 = c.wires.isPowered bit

namespace Tallies

variable {was : Bool} {c : Circuit} (h : Tallies was c)

include h

/-! ## One simulation -/

theorem forward : Gate.Forward c.gates := Gate.forward_of_components h.components forward_tally

theorem nodup : (c.gates.flatMap Gate.outputs).Nodup := by
  rw [← Gate.flatMap_outputs_component, h.components]
  decide

theorem known : ∀ id ∈ tally.components.flatMap Component.outputs, id ∈ c.wires.ids := by
  rw [h.ids]
  decide

theorem converged : c.simulate.1.converged = true := by
  refine Circuit.converged_of_forward h.forward fun gate hgate => ?_
  have hself : ∀ component ∈ tally.components, ∀ wire ∈ component.outputs,
      wire ∉ component.inputs := by decide
  exact hself gate.component (h.components ▸ List.mem_map_of_mem hgate)

theorem follows (k : Nat) :
    Component.Follows (fun id => c.signalAfter id k) (fun id => c.signalAfter id (k + 1))
      tally.components :=
  Circuit.follows_signalAfter h.components (by decide) h.known k

/-- The flip-flops get the clock and the reset of the step from the second round on. -/
theorem signalAfter_passed (k : Nat) :
    c.signalAfter ⟨3⟩ k = (if k ≤ 0 then was else c.wires.isPowered ⟨1⟩) ∧
      c.signalAfter ⟨4⟩ k = if k ≤ 0 then c.wires.isPowered ⟨4⟩ else c.wires.isPowered ⟨2⟩ := by
  cases k with
  | zero => exact ⟨h.clock, rfl⟩
  | succ k =>
    obtain ⟨h3, h4, -⟩ := follows_tally (h.follows k)
    rw [if_neg (Nat.not_succ_le_zero k), if_neg (Nat.not_succ_le_zero k), h3, h4]
    exact ⟨Circuit.signalAfter_of_not_mem_outputs h.components (by decide) k,
      Circuit.signalAfter_of_not_mem_outputs h.components (by decide) k⟩

theorem signalAfter_set {id : WireId} (hid : id ∈ tallySets) (k : Nat) :
    c.signalAfter id k = false := by
  cases k with
  | zero => exact h.sets id hid
  | succ k =>
    obtain ⟨-, -, -, hsets, -⟩ := follows_tally (h.follows k)
    exact hsets id hid

/-- A bit changes in the second round, in which its flip-flop sees the edge. -/
theorem signalAfter_bit {bit toggle : WireId} (htoggle : (bit, toggle) ∈ tallyToggles) (k : Nat) :
    c.signalAfter bit k = if k ≤ 1 then c.wires.isPowered bit
      else !c.wires.isPowered ⟨2⟩ &&
        ((!was && c.wires.isPowered ⟨1⟩ && c.signalAfter toggle 1) ^^ c.wires.isPowered bit) := by
  have hbit : bit ∈ tallyBits := List.mem_map_of_mem htoggle
  obtain ⟨set, hset, inverse, hflip⟩ := exists_flipFlop_tally htoggle
  rw [← h.components] at hflip
  obtain ⟨flip, hmem, hcomponent⟩ := List.mem_map.1 hflip
  have hbehaviour : flip.behaviour = .flipFlop := congrArg Component.behaviour hcomponent
  have hinputs : flip.inputs = [⟨3⟩, toggle, set, ⟨4⟩] := congrArg Component.inputs hcomponent
  have houtputs : flip.outputs = [bit, inverse] := congrArg Component.outputs hcomponent
  have hhead : bit ∈ flip.outputs.head? := by
    rw [houtputs]
    rfl
  obtain ⟨hseen, hheld⟩ := h.flips flip hmem hbehaviour
  have hinput : ∀ k, flip.input (Circuit.round^[k] c).wires 0 = c.signalAfter ⟨3⟩ k ∧
      flip.input (Circuit.round^[k] c).wires 1 = c.signalAfter toggle k ∧
      flip.input (Circuit.round^[k] c).wires 2 = c.signalAfter set k ∧
      flip.input (Circuit.round^[k] c).wires 3 = c.signalAfter ⟨4⟩ k := by
    intro k
    simp only [Gate.input, hinputs]
    exact ⟨rfl, rfl, rfl, rfl⟩
  have hstate := Circuit.stateBit_gateAfter hbehaviour
    (fun k => (hinput k).1.trans (h.signalAfter_passed k).1)
    (fun k => (hinput k).2.2.1.trans (h.signalAfter_set hset k))
    (fun k => (hinput k).2.2.2.trans (h.signalAfter_passed k).2) hseen
    (fun hreset => (hheld bit hhead).trans (h.cleared hreset bit hbit)) k
  rw [hheld bit hhead, (hinput _).2.1] at hstate
  rw [← hstate.2]
  cases k with
  | zero => exact (hheld bit hhead).symm
  | succ k =>
    have hdriven : ∀ bit ∈ tallyBits, bit ∈ tally.components.flatMap Component.outputs := by decide
    exact Circuit.signalAfter_flipFlop h.forward h.nodup hmem hbehaviour hhead
      (h.known bit (hdriven bit hbit)) k

/-- From the second round on the bits are those of a number to which the edge, if there was
one, has been added, or they are off. -/
theorem signalAfter_bits {k : Nat} (hk : 2 ≤ k) :
    (tallyBits.map fun bit => c.signalAfter bit k) =
      (Chain.increment (!was && c.wires.isPowered ⟨1⟩) (tallyBits.map c.wires.isPowered)).map
        (!c.wires.isPowered ⟨2⟩ && ·) := by
  have hlate : ¬k ≤ 1 := by omega
  obtain ⟨-, -, h5, -, h12, -, h17, -⟩ := follows_tally (h.follows 0)
  have hcarry : c.signalAfter ⟨12⟩ 1 = (c.wires.isPowered ⟨7⟩ && c.wires.isPowered ⟨10⟩) := h12
  have hcarry' : c.signalAfter ⟨17⟩ 1 =
      (c.wires.isPowered ⟨7⟩ && c.wires.isPowered ⟨10⟩ && c.wires.isPowered ⟨14⟩) :=
    h17.trans (congrArg (· && c.wires.isPowered ⟨14⟩) h.pair)
  have hfirst : c.signalAfter ⟨7⟩ 1 = c.wires.isPowered ⟨7⟩ :=
    (h.signalAfter_bit (by decide : (_, ⟨5⟩) ∈ tallyToggles) 1).trans (if_pos le_rfl)
  have hbit := fun {bit toggle : WireId} (htoggle : (bit, toggle) ∈ tallyToggles) =>
    (h.signalAfter_bit htoggle k).trans (if_neg hlate)
  simp only [tallyBits, tallyToggles, List.map_cons, List.map_nil, Chain.increment]
  rw [hbit (by decide : (⟨7⟩, ⟨5⟩) ∈ tallyToggles), hbit (by decide : (⟨10⟩, ⟨7⟩) ∈ tallyToggles),
    hbit (by decide : (⟨14⟩, ⟨12⟩) ∈ tallyToggles), hbit (by decide : (⟨19⟩, ⟨17⟩) ∈ tallyToggles),
    h5, hfirst, hcarry, hcarry']
  simp only [Bool.and_true, Bool.and_assoc]

/-- A simulation settles.  Its outputs show the bits, to which a rising clock has added one. -/
theorem simulate : c.simulate.1.converged = true ∧
    Tallies (c.wires.isPowered ⟨1⟩) c.simulate.2 ∧
    tallyBits.map c.simulate.2.wires.isPowered =
      (Chain.increment (!was && c.wires.isPowered ⟨1⟩) (tallyBits.map c.wires.isPowered)).map
        (!c.wires.isPowered ⟨2⟩ && ·) ∧
    tally.outputs.map c.simulate.2.wires.isPowered =
      tallyBits.map c.simulate.2.wires.isPowered := by
  obtain ⟨last, hlast⟩ := Circuit.exists_iterate_eq_of_converged h.converged
  obtain ⟨j, hj, hend⟩ : ∃ j, 2 ≤ j ∧ Circuit.round^[j + 1] c = c.simulate.2 :=
    ⟨max last 2, Nat.le_max_right _ _, hlast _ (Nat.le_succ_of_le (Nat.le_max_left _ _))⟩
  have hread : c.simulate.2.wires.isPowered = fun id => c.signalAfter id (j + 1) := by
    rw [← hend]
    rfl
  have hbits := h.signalAfter_bits (Nat.le_succ_of_le hj)
  have hsame : ∀ bit ∈ tallyBits, c.signalAfter bit (j + 1) = c.signalAfter bit j :=
    List.map_inj_left.1 (hbits.trans (h.signalAfter_bits hj).symm)
  obtain ⟨-, -, -, -, -, h16, -, houtputs⟩ := follows_tally (h.follows j)
  rw [hread]
  refine ⟨h.converged, ⟨?_, ?_, ?_, ?_, ?_, ?_, ?_⟩, hbits, ?_⟩
  · rw [← hend, Circuit.map_component_iterate, h.components]
  · rw [Circuit.ids_simulate, h.ids]
  · rw [hread]
    exact (h.signalAfter_passed (j + 1)).1
  · rw [hread]
    exact fun id hid => h.signalAfter_set hid (j + 1)
  · rw [hread]
    show c.signalAfter ⟨16⟩ (j + 1) = (c.signalAfter ⟨7⟩ (j + 1) && c.signalAfter ⟨10⟩ (j + 1))
    rw [h16, hsame ⟨7⟩ (by decide), hsame ⟨10⟩ (by decide)]
  · rw [hread]
    intro hreset bit hbit
    have hreset' : c.wires.isPowered ⟨2⟩ = true :=
      (h.signalAfter_passed (j + 1)).2.symm.trans hreset
    have hmem := List.mem_map_of_mem (f := fun bit => c.signalAfter bit (j + 1)) hbit
    rw [hbits, hreset'] at hmem
    obtain ⟨other, -, hoff⟩ := List.mem_map.1 hmem
    exact hoff.symm
  · intro flip hflip hbehaviour
    rw [← hend, Circuit.gates_iterate h.forward] at hflip
    obtain ⟨gate, hgate, rfl⟩ := List.mem_map.1 hflip
    rw [Circuit.behaviour_gateAfter] at hbehaviour
    have hcomponent : gate.component ∈ tally.components := by
      rw [← h.components]
      exact List.mem_map_of_mem hgate
    have hclocks : ∀ component ∈ tally.components, component.behaviour = .flipFlop →
        component.inputs.head? = some ⟨3⟩ := by decide
    obtain ⟨inputs, hinputs⟩ := List.head?_eq_some_iff.1 (hclocks _ hcomponent hbehaviour)
    refine ⟨?_, fun bit hbit => ?_⟩
    · have hseen := (Gate.stateBit_answering ((c.behaviour_gateAfter gate j).trans hbehaviour)
        (Circuit.round^[j] c).wires).1
      refine hseen.trans ?_
      rw [Circuit.input_gateAfter, Gate.input, show gate.inputs = ⟨3⟩ :: inputs from hinputs]
      exact (h.signalAfter_passed j).1.trans (if_neg (by omega))
    · rw [Gate.outputs_eq_of_bare_eq (c.bare_gateAfter gate (j + 1))] at hbit
      rw [hread]
      refine (Circuit.signalAfter_flipFlop h.forward h.nodup hgate hbehaviour hbit ?_ j).symm
      exact h.known bit (List.mem_flatMap.2 ⟨_, hcomponent, List.mem_of_mem_head? hbit⟩)
  · rw [houtputs]
    exact (List.map_congr_left hsame).symm

end Tallies

/-! ## Runs -/

/-- What a step with a clock and a reset does to a number that is counted, and to the level
that the clock had last. -/
def tick (state : Bool × Nat) (step : Bool × Bool) : Bool × Nat :=
  (step.1, if step.2 then 0 else if step.1 && !state.1 then (state.2 + 1) % 16 else state.2)

/-- Bits to which an edge is added, unless they are reset, are those of the next number. -/
theorem number_tick (was : Bool) {bits : List Bool} (hbits : bits.length = 4) (step : Bool × Bool) :
    Chain.number ((Chain.increment (!was && step.1) bits).map (!step.2 && ·)) =
      (tick (was, Chain.number bits) step).2 := by
  obtain ⟨clock, reset⟩ := step
  cases reset with
  | true =>
    refine Chain.number_eq_zero fun bit hbit => ?_
    obtain ⟨other, -, rfl⟩ := List.mem_map.1 hbit
    rfl
  | false =>
    have hkeep : (Chain.increment (!was && clock) bits).map (!false && ·) =
        Chain.increment (!was && clock) bits := List.map_id' _
    rw [hkeep, tick, Bool.and_comm clock]
    cases !was && clock with
    | true => rw [Chain.number_increment, hbits]; rfl
    | false => rw [Chain.increment_false]; rfl

namespace Netlist

variable {n : Netlist} {first second : String}

/-- Setting the clock and the reset changes neither the bits nor what the flip-flops
remember. -/
theorem tallies_setInputs {level : Bool} (h : n.layout [first, second] = tally)
    (hn : Tallies level n.circuit) (step : Bool × Bool) :
    Tallies level (n.setInputs (inputPair first second step)).circuit ∧
      tallyBits.map (n.setInputs (inputPair first second step)).wires.isPowered =
        tallyBits.map n.wires.isPowered := by
  obtain ⟨-, -, hothers⟩ := isPowered_setInputs_pair h rfl (by decide) step
  have hset := (layout_eq_of_unlit_eq (unlit_setInputs (inputPair first second step) n) _).trans h
  have hdriven : ∀ id ∈ tally.components.flatMap Component.outputs, id ≠ ⟨1⟩ ∧ id ≠ ⟨2⟩ := by
    decide
  have hsame : ∀ id ∈ tally.components.flatMap Component.outputs,
      (n.setInputs (inputPair first second step)).circuit.wires.isPowered id =
        n.circuit.wires.isPowered id :=
    fun id hid => hothers id (hdriven id hid).1 (hdriven id hid).2
  have hbits : ∀ bit ∈ tallyBits, bit ∈ tally.components.flatMap Component.outputs := by decide
  have hsets : ∀ id ∈ tallySets, id ∈ tally.components.flatMap Component.outputs := by decide
  refine ⟨⟨congrArg Layout.components hset, congrArg Layout.ids hset, ?_, fun id hid => ?_, ?_,
    fun hreset bit hbit => ?_, fun flip hflip hbehaviour => ?_⟩,
    List.map_congr_left fun bit hbit => hsame bit (hbits bit hbit)⟩
  · exact (hsame _ (by decide)).trans hn.clock
  · exact (hsame id (hsets id hid)).trans (hn.sets id hid)
  · rw [hsame _ (by decide), hsame _ (by decide), hsame _ (by decide), hn.pair]
  · rw [hsame _ (by decide)] at hreset
    exact (hsame bit (hbits bit hbit)).trans (hn.cleared hreset bit hbit)
  · have hflip' : flip ∈ n.circuit.gates := by
      rwa [gates_circuit, gates_setInputs] at hflip
    obtain ⟨hseen, hheld⟩ := hn.flips flip hflip' hbehaviour
    have hcomponent : flip.component ∈ tally.components := by
      rw [← hn.components]
      exact List.mem_map_of_mem hflip'
    refine ⟨hseen, fun bit hbit => (hheld bit hbit).trans (hsame bit ?_).symm⟩
    exact List.mem_flatMap.2 ⟨_, hcomponent, List.mem_of_mem_head? hbit⟩

/-- A step counts.  It may change the clock and the reset at once. -/
theorem tallies_stepped {was : Bool} (h : n.layout [first, second] = tally)
    (hn : Tallies was n.circuit) (step : Bool × Bool) :
    (n.stepped (inputPair first second step)).1.converged = true ∧
      Tallies step.1 (n.stepped (inputPair first second step)).2.circuit ∧
      Chain.number (tallyBits.map (n.stepped (inputPair first second step)).2.wires.isPowered) =
        (tick (was, Chain.number (tallyBits.map n.wires.isPowered)) step).2 ∧
      (n.stepped (inputPair first second step)).2.reading =
        Chain.number
          (tallyBits.map (n.stepped (inputPair first second step)).2.wires.isPowered) := by
  obtain ⟨hset, hsame⟩ := tallies_setInputs h hn step
  obtain ⟨hclock, hreset, -⟩ := isPowered_setInputs_pair h rfl (by decide) step
  obtain ⟨hconverged, htallies, hbits, houtputs⟩ := hset.simulate
  have hwires : (n.stepped (inputPair first second step)).2.wires =
      (n.setInputs (inputPair first second step)).circuit.simulate.2.wires :=
    congrArg Circuit.wires (circuit_stepped _ n)
  have hshown : (n.stepped (inputPair first second step)).2.outputs = tally.outputs :=
    congrArg Layout.outputs ((layout_eq_of_unlit_eq (unlit_stepped _ n) _).trans h)
  rw [wires_circuit, hclock] at htallies
  rw [wires_circuit, hclock, hreset, hsame] at hbits
  refine ⟨(congrArg Circuit.Verdict.converged (simulate_fst _)).trans hconverged, ?_, ?_, ?_⟩
  · rw [circuit_stepped]
    exact htallies
  · rw [hwires, hbits]
    exact number_tick was (List.length_map _) step
  · rw [reading, hshown, hwires, houtputs]

/-- A counter that is dark and remembers nothing counts from zero in every run.  All of its
steps settle. -/
theorem reading_of_tally (h : n.layout [first, second] = tally)
    (hdark : ∀ id, n.wires.isPowered id = false) (hstates : ∀ gate ∈ n.gates, gate.state = "")
    (steps : List (Bool × Bool)) (step : Bool × Bool) :
    let result := (n.afterSteps (steps.map (inputPair first second))).stepped
      (inputPair first second step)
    result.1.converged = true ∧
      result.2.reading = ((steps ++ [step]).foldl tick (false, 0)).2 := by
  have hstart : Tallies false n.circuit := by
    have hoff : stateBit "" 0 = false ∧ stateBit "" 1 = false := by decide
    refine ⟨congrArg Layout.components h, congrArg Layout.ids h, hdark _, fun id _ => hdark id,
      ?_, fun _ bit _ => hdark bit, fun flip hflip _ => ?_⟩
    · show n.wires.isPowered ⟨16⟩ = (n.wires.isPowered ⟨7⟩ && n.wires.isPowered ⟨10⟩)
      rw [hdark, hdark, hdark]
      rfl
    · rw [hstates flip hflip]
      exact ⟨hoff.1, fun bit _ => hoff.2.trans (hdark bit).symm⟩
  have hzero : Chain.number (tallyBits.map n.wires.isPowered) = 0 := by
    refine Chain.number_eq_zero fun bit hbit => ?_
    obtain ⟨id, -, rfl⟩ := List.mem_map.1 hbit
    exact hdark id
  have hnext : ∀ steps : List (Bool × Bool), ∀ step,
      (steps ++ [step]).foldl tick (false, 0) = tick (steps.foldl tick (false, 0)) step := by
    intro steps step
    rw [List.foldl_append, List.foldl_cons, List.foldl_nil]
  -- Between two steps the bits are those of the number that has been counted.
  obtain ⟨htallies, hnumber⟩ : Tallies (steps.foldl tick (false, 0)).1
        (n.afterSteps (steps.map (inputPair first second))).circuit ∧
      Chain.number (tallyBits.map
        (n.afterSteps (steps.map (inputPair first second))).wires.isPowered) =
          (steps.foldl tick (false, 0)).2 := by
    refine afterSteps_induction (P := fun steps m =>
      Tallies (steps.foldl tick (false, 0)).1 m.circuit ∧
        Chain.number (tallyBits.map m.wires.isPowered) = (steps.foldl tick (false, 0)).2)
      ⟨hstart, hzero⟩ (fun steps step m hm hcounted => ?_) steps
    obtain ⟨-, htallies, hbits, -⟩ :=
      tallies_stepped ((layout_eq_of_unlit_eq hm _).trans h) hcounted.1 step
    rw [hcounted.2] at hbits
    rw [hnext]
    exact ⟨htallies, hbits⟩
  have hlayout := (layout_eq_of_unlit_eq (unlit_afterSteps (steps.map (inputPair first second)) n)
    [first, second]).trans h
  obtain ⟨hconverged, -, hbits, hreading⟩ := tallies_stepped hlayout htallies step
  rw [hnumber] at hbits
  rw [hnext]
  exact ⟨hconverged, hreading.trans hbits⟩

end Netlist

end Gatework
