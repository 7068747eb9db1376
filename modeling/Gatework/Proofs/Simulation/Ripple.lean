import Gatework.Proofs.Simulation.FlipFlop
import Mathlib.Data.Nat.Digits.Defs

/-!
# Chains of flip-flops

Flip-flops of which each is the clock of the next one count the presses of a switch,
downwards and with as many bits as there are flip-flops.  A rising edge of the switch
goes along the chain by one flip-flop in each round, as far as bits turn on.  Every
flip-flop is evaluated in all of these rounds, but its clock changes once at most.

There are six groups.

* `Chain.ripple` is what an edge does to the bits of a chain, and `number_ripple` what
  it does to the number that they are.
* `Stage` is a flip-flop with the source of its second input.  `Stage.Made` says which
  two gates are one, and its lemmas what these two answer.
* One stage in many rounds.  If its clock changes once, then so does its bit, one round
  later (`Stage.Made.trace`).
* All stages.  `Chain` is a list of gates that are stages in a row, with what they show
  and remember between two simulations, and `Chain.iterate` follows an edge along it.
* `Counts` is a circuit of a switch and a chain behind it, and `Counts.simulate` says
  what a simulation does to it.
* Presses of the switch.  `Counts.reading_afterPresses` gives the number that the outputs
  show after some of them.
-/

namespace Gatework

/-! ## Edges and numbers -/

theorem two_mul_add_one_emod (a m : ℤ) : (2 * a + 1) % (2 * m) = 2 * (a % m) + 1 := by
  have hhalf : (2 * a + 1) / 2 = a := by omega
  have hquotient : (2 * a + 1) / (2 * m) = a / m := by
    rw [← Int.ediv_ediv_of_nonneg (Int.zero_le_ofNat 2), hhalf]
  rw [Int.emod_def, Int.emod_def, hquotient]
  ring

namespace Chain

/-- The bits of a chain after the level of its clock has risen or not. -/
def ripple : Bool → List Bool → List Bool
  | _, [] => []
  | rise, bit :: bits => (rise ^^ bit) :: ripple (rise && !bit) bits

theorem ripple_false (bits : List Bool) : ripple false bits = bits := by
  induction bits with
  | nil => rfl
  | cons bit bits ih => rw [ripple, Bool.false_xor, Bool.false_and, ih]

/-- The number of which some bits are the binary digits, the lowest first. -/
def number (bits : List Bool) : Nat := Nat.ofDigits 2 (bits.map Bool.toNat)

theorem number_cons (bit : Bool) (bits : List Bool) :
    number (bit :: bits) = bit.toNat + 2 * number bits := Nat.ofDigits_cons ..

theorem number_lt (bits : List Bool) : number bits < 2 ^ bits.length := by
  induction bits with
  | nil => exact Nat.one_pos
  | cons bit bits ih =>
    have hbit := bit.toNat_lt
    rw [number_cons, List.length_cons, Nat.pow_succ]
    omega

theorem number_eq_zero {bits : List Bool} (h : ∀ bit ∈ bits, bit = false) : number bits = 0 := by
  induction bits with
  | nil => rfl
  | cons bit bits ih =>
    rw [List.forall_mem_cons] at h
    rw [number_cons, h.1, ih h.2]
    rfl

/-- A rising edge takes one away, modulo the power of two. -/
theorem number_ripple (bits : List Bool) :
    (number (ripple true bits) : ℤ) = ((number bits : ℤ) - 1) % 2 ^ bits.length := by
  induction bits with
  | nil => rfl
  | cons bit bits ih =>
    have hlt : (number bits : ℤ) < 2 ^ bits.length := by exact_mod_cast number_lt bits
    rw [ripple, number_cons, number_cons, List.length_cons, pow_succ', Bool.true_xor,
      Bool.true_and]
    cases bit with
    | true =>
      have hwhole : ((true.toNat + 2 * number bits : ℕ) : ℤ) - 1 = 2 * (number bits : ℤ) := by
        push_cast [Bool.toNat_true]
        ring
      rw [Bool.not_true, ripple_false, hwhole, Int.mul_emod_mul_of_pos _ _ two_pos,
        Int.emod_eq_of_lt (Int.natCast_nonneg _) hlt]
      simp
    | false =>
      have hhalf : ((false.toNat + 2 * number bits : ℕ) : ℤ) - 1 =
          2 * ((number bits : ℤ) - 1) + 1 := by
        push_cast [Bool.toNat_false]
        ring
      rw [Bool.not_false, hhalf, two_mul_add_one_emod, ← ih]
      push_cast [Bool.toNat_true]
      ring

end Chain

/-! ## Stages -/

/-- The wires that a stage of a chain drives: its second input, its bit, and the opposite
of it. -/
structure Stage where
  high : WireId
  bit : WireId
  inverse : WireId

namespace Stage

/-- The wires of a stage. -/
def wires (stage : Stage) : List WireId := [stage.high, stage.bit, stage.inverse]

/-- A source and a flip-flop are a stage behind a clock. -/
structure Made (stage : Stage) (clock : WireId) (source flip : Gate) : Prop where
  source_kind : source.kind = .source
  source_label : source.label = ""
  source_inputs : source.inputs = []
  source_outputs : source.outputs = [stage.high]
  flip_kind : flip.kind = .builtin
  flip_label : flip.label = Builtin.tFlipFlop.name
  flip_inputs : flip.inputs = [clock, stage.high]
  flip_outputs : flip.outputs = [stage.bit, stage.inverse]

/-- Gates that differ in their states only are the same stage. -/
theorem Made.of_bare_eq {stage : Stage} {clock : WireId} {source flip source' flip' : Gate}
    (h : stage.Made clock source flip) (hsource : source'.bare = source.bare)
    (hflip : flip'.bare = flip.bare) : stage.Made clock source' flip' where
  source_kind := (congrArg Gate.kind hsource).trans h.source_kind
  source_label := (congrArg Gate.label hsource).trans h.source_label
  source_inputs := (Gate.inputs_eq_of_bare_eq hsource).trans h.source_inputs
  source_outputs := (Gate.outputs_eq_of_bare_eq hsource).trans h.source_outputs
  flip_kind := (congrArg Gate.kind hflip).trans h.flip_kind
  flip_label := (congrArg Gate.label hflip).trans h.flip_label
  flip_inputs := (Gate.inputs_eq_of_bare_eq hflip).trans h.flip_inputs
  flip_outputs := (Gate.outputs_eq_of_bare_eq hflip).trans h.flip_outputs

/-- What the source of a stage answers. -/
theorem Made.react_source {stage : Stage} {clock : WireId} {source flip : Gate}
    (h : stage.Made clock source flip) (read : WireId → Bool) :
    (source.react read).drives = [(stage.high, true)] := by
  rw [Gate.react, Gate.behaviour, h.source_kind]
  show source.outputs.zip [true] = _
  rw [h.source_outputs]
  rfl

theorem Made.behaviour_flip {stage : Stage} {clock : WireId} {source flip : Gate}
    (h : stage.Made clock source flip) : flip.behaviour = .flipFlop := by
  have hbuiltin : flip.builtin? = some .tFlipFlop := by
    rw [Gate.builtin?, h.flip_kind, h.flip_label]
    rfl
  rw [Gate.behaviour, h.flip_kind]
  dsimp only
  rw [hbuiltin]

end Stage

/-! ## One stage in many rounds -/

section Rounds

variable {c : Circuit} (hforward : Gate.Forward c.gates)
  (hnodup : (c.gates.flatMap Gate.outputs).Nodup)

namespace Stage

variable {stage : Stage} {clock : WireId} {source flip : Gate}

include hforward hnodup

/-- A round turns the second input of a stage on. -/
theorem Made.signalAfter_high (h : stage.Made clock source flip) (hsource : source ∈ c.gates)
    (hknown : ∀ id ∈ stage.wires, id ∈ c.wires.ids) (k : Nat) :
    c.signalAfter stage.high (k + 1) = true := by
  have hmade := h.of_bare_eq (c.bare_gateAfter source k) (c.bare_gateAfter flip k)
  have hhigh : (stage.high, true) ∈
      ((c.gateAfter source k).react fun id => c.signalAfter id k).drives := by
    rw [hmade.react_source]
    exact List.mem_singleton_self _
  exact Circuit.signalAfter_succ hforward hnodup hsource hhigh (hknown _ List.mem_cons_self)

/-- A clock that changes its level once, and was seen before the change, makes the bit
change once at most, one round later. -/
theorem Made.trace (h : stage.Made clock source flip) (hsource : source ∈ c.gates)
    (hflip : flip ∈ c.gates) (hknown : ∀ id ∈ stage.wires, id ∈ c.wires.ids)
    (hheld : stateBit flip.state 1 = c.wires.isPowered stage.bit) {before after : Bool}
    {change : Nat} (hclock : ∀ k, c.signalAfter clock k = if k ≤ change then before else after)
    (hseen : stateBit flip.state 0 = before) (k : Nat) :
    c.signalAfter stage.bit k =
        (if k ≤ change + 1 then c.wires.isPowered stage.bit
          else (!before && after) ^^ c.wires.isPowered stage.bit) ∧
      stateBit (c.gateAfter flip k).state 0 = (if k ≤ change + 1 then before else after) ∧
      stateBit (c.gateAfter flip k).state 1 = c.signalAfter stage.bit k := by
  have hbehaviour : flip.behaviour = .flipFlop := h.behaviour_flip
  -- The source has acted by the time the flip-flop sees the change.
  have hhigh : flip.input (Circuit.round^[change + 1] c).wires 1 = true := by
    rw [Gate.input, h.flip_inputs]
    exact h.signalAfter_high hforward hnodup hsource hknown change
  have hclock' : ∀ k, flip.input (Circuit.round^[k] c).wires 0 =
      if k ≤ change then before else after := by
    intro k
    rw [Gate.input, h.flip_inputs]
    exact hclock k
  have hmissing : ∀ k, flip.input (Circuit.round^[k] c).wires 2 = false ∧
      flip.input (Circuit.round^[k] c).wires 3 = if k ≤ change then false else false := by
    intro k
    rw [Gate.input, Gate.input, h.flip_inputs, ite_self]
    exact ⟨rfl, rfl⟩
  obtain ⟨hsaw, hholds⟩ := Circuit.stateBit_gateAfter hbehaviour hclock'
    (fun k => (hmissing k).1) (fun k => (hmissing k).2) hseen (fun hreset => by cases hreset) k
  rw [hhigh, hheld, Bool.not_false, Bool.true_and, Bool.and_true] at hholds
  have hshows : stateBit (c.gateAfter flip k).state 1 = c.signalAfter stage.bit k := by
    cases k with
    | zero => exact hheld
    | succ k =>
      have hhead : stage.bit ∈ flip.outputs.head? := by
        rw [h.flip_outputs]
        rfl
      exact (Circuit.signalAfter_flipFlop hforward hnodup hflip hbehaviour hhead
        (hknown _ (List.mem_cons_of_mem _ List.mem_cons_self)) k).symm
  exact ⟨hshows.symm.trans hholds, hsaw, hshows⟩

end Stage

/-! ## All stages -/

/-- The gates of stages in a row, each of them the clock of the next one.  Every
flip-flop has seen the level of its clock, and shows the bit that it holds. -/
inductive Chain (read : WireId → Bool) (ready : Bool) : WireId → List Stage → List Gate → Prop
  | nil (clock : WireId) : Chain read ready clock [] []
  | cons {clock : WireId} {stage : Stage} {stages : List Stage} {source flip : Gate}
      {gates : List Gate} (made : stage.Made clock source flip) (high : read stage.high = ready)
      (seen : stateBit flip.state 0 = read clock) (held : stateBit flip.state 1 = read stage.bit)
      (rest : Chain read ready stage.bit stages gates) :
      Chain read ready clock (stage :: stages) (source :: flip :: gates)

namespace Chain

variable {read : WireId → Bool} {ready : Bool} {clock : WireId} {stages : List Stage}
  {gates : List Gate}

theorem outputs (h : Chain read ready clock stages gates) :
    gates.flatMap Gate.outputs = stages.flatMap Stage.wires := by
  induction h with
  | nil => rfl
  | cons made high seen held rest ih =>
    rw [List.flatMap_cons, List.flatMap_cons, List.flatMap_cons, ih, made.source_outputs,
      made.flip_outputs]
    rfl

theorem label_ne (h : Chain read ready clock stages gates) :
    ∀ gate ∈ gates, gate.label ≠ Builtin.toggle.name := by
  induction h with
  | nil => exact fun gate hgate => absurd hgate List.not_mem_nil
  | cons made high seen held rest ih =>
    refine List.forall_mem_cons.2 ⟨?_, List.forall_mem_cons.2 ⟨?_, ih⟩⟩
    · rw [made.source_label]
      decide
    · rw [made.flip_label]
      decide

/-- The stages of a chain are in the order of their clocks. -/
theorem forward (h : Chain read ready clock stages gates)
    (hnodup : (clock :: stages.flatMap Stage.wires).Nodup) :
    Gate.Forward gates ∧ ∀ gate ∈ gates, ∀ wire ∈ gate.outputs, wire ∉ gate.inputs := by
  induction h with
  | nil => exact ⟨List.Pairwise.nil, fun gate hgate => absurd hgate List.not_mem_nil⟩
  | @cons clock stage stages source flip gates made high seen held rest ih =>
    simp only [List.flatMap_cons, Stage.wires, List.cons_append, List.nil_append,
      List.nodup_cons, List.mem_cons, not_or] at hnodup
    obtain ⟨⟨hclockHigh, hclockBit, hclockInverse, hclockLater⟩, ⟨hhighBit, hhighInverse,
      hhighLater⟩, ⟨-, hbitLater⟩, -, hnodup⟩ := hnodup
    obtain ⟨hforward, hself⟩ := ih (List.nodup_cons.2 ⟨hbitLater, hnodup⟩)
    have hlater : ∀ later ∈ gates, ∀ wire ∈ later.outputs, wire ∉ flip.inputs := by
      intro later hmem wire hwire hin
      have hdriven : wire ∈ stages.flatMap Stage.wires := by
        rw [← rest.outputs]
        exact List.mem_flatMap.2 ⟨later, hmem, hwire⟩
      rw [made.flip_inputs, List.mem_pair] at hin
      rcases hin with rfl | rfl
      · exact hclockLater hdriven
      · exact hhighLater hdriven
    have hsource : ∀ wire, wire ∉ source.inputs := by
      intro wire
      rw [made.source_inputs]
      exact List.not_mem_nil
    have hflip : ∀ wire ∈ flip.outputs, wire ∉ flip.inputs := by
      intro wire hout hin
      rw [made.flip_outputs, List.mem_pair] at hout
      rw [made.flip_inputs, List.mem_pair] at hin
      rcases hout with rfl | rfl <;> rcases hin with heq | heq
      · exact hclockBit heq.symm
      · exact hhighBit heq.symm
      · exact hclockInverse heq.symm
      · exact hhighInverse heq.symm
    refine ⟨List.pairwise_cons.2 ⟨fun _ _ wire _ => hsource wire,
      List.pairwise_cons.2 ⟨hlater, hforward⟩⟩, ?_⟩
    exact List.forall_mem_cons.2 ⟨fun wire _ => hsource wire,
      List.forall_mem_cons.2 ⟨hflip, hself⟩⟩

end Chain

section Chain

variable {ready : Bool} {clock : WireId} {stages : List Stage} {gates : List Gate}

include hforward hnodup in
/-- An edge of the clock goes along the chain. -/
theorem Chain.iterate (h : Chain c.wires.isPowered ready clock stages gates)
    (hgates : ∀ gate ∈ gates, gate ∈ c.gates)
    (hknown : ∀ id ∈ stages.flatMap Stage.wires, id ∈ c.wires.ids) {before after : Bool}
    {change : Nat} (hclock : ∀ k, c.signalAfter clock k = if k ≤ change then before else after) :
    ∃ settled, ∀ k, settled ≤ k →
      Chain (fun id => c.signalAfter id k) true clock stages
          (gates.map fun gate => c.gateAfter gate k) ∧
        stages.map (fun stage => c.signalAfter stage.bit k) =
          ripple (!before && after) (stages.map fun stage => c.wires.isPowered stage.bit) := by
  induction h generalizing before after change with
  | nil clock => exact ⟨0, fun k _ => ⟨.nil clock, rfl⟩⟩
  | @cons clock stage stages source flip gates made high seen held rest ih =>
    rw [List.forall_mem_cons, List.forall_mem_cons] at hgates
    rw [List.flatMap_cons, List.forall_mem_append] at hknown
    obtain ⟨hsource, hflip, hgates⟩ := hgates
    have hseen : stateBit flip.state 0 = before := by
      rw [seen, ← Circuit.signalAfter_zero, hclock, if_pos (Nat.zero_le change)]
    have htrace := made.trace hforward hnodup hsource hflip hknown.1 held hclock hseen
    have hnext : (!c.wires.isPowered stage.bit &&
        ((!before && after) ^^ c.wires.isPowered stage.bit)) =
          ((!before && after) && !c.wires.isPowered stage.bit) := by
      cases c.wires.isPowered stage.bit <;> simp
    obtain ⟨settled, hsettled⟩ := ih hgates hknown.2 fun k => (htrace k).1
    refine ⟨max settled (change + 2), fun k hk => ?_⟩
    obtain ⟨hchain, hbits⟩ := hsettled k (le_of_max_le_left hk)
    obtain ⟨earlier, rfl⟩ : ∃ earlier, k = earlier + 1 := ⟨k - 1, by omega⟩
    have hlate : ¬earlier + 1 ≤ change + 1 := by omega
    have hlate' : ¬earlier + 1 ≤ change := by omega
    obtain ⟨hbit, hsaw, hholds⟩ := htrace (earlier + 1)
    rw [if_neg hlate] at hbit hsaw
    refine ⟨.cons (made.of_bare_eq (c.bare_gateAfter source _) (c.bare_gateAfter flip _))
      (made.signalAfter_high hforward hnodup hsource hknown.1 earlier) ?_ hholds hchain, ?_⟩
    · rw [hsaw, hclock, if_neg hlate']
    · rw [List.map_cons, List.map_cons, hbits, hbit, ripple, hnext]

end Chain

end Rounds

/-! ## A switch and a chain -/

/-- A switch that drives a wire, and is on or off. -/
structure Gate.IsToggle (on : Bool) (wire : WireId) (gate : Gate) : Prop where
  kind : gate.kind = .builtin
  label : gate.label = Builtin.toggle.name
  inputs : gate.inputs = []
  outputs : gate.outputs = [wire]
  state : (gate.state == "on") = on

/-- What a switch answers. -/
theorem Gate.IsToggle.react {on : Bool} {wire : WireId} {gate : Gate} (h : gate.IsToggle on wire)
    (read : WireId → Bool) : gate.react read = ⟨gate.state, [(wire, on)]⟩ := by
  have hbuiltin : gate.builtin? = some .toggle := by
    rw [Gate.builtin?, h.kind, h.label]
    rfl
  rw [Gate.react, Gate.behaviour, h.kind]
  dsimp only
  rw [hbuiltin]
  show Reaction.mk gate.state (gate.outputs.map fun pin => (pin, gate.state == "on")) = _
  rw [h.outputs, h.state]
  rfl

/-- Rounds leave a switch as it is. -/
theorem Gate.IsToggle.gateAfter {on : Bool} {wire : WireId} {gate : Gate}
    (h : gate.IsToggle on wire) (c : Circuit) (k : Nat) :
    (c.gateAfter gate k).IsToggle on wire := by
  induction k with
  | zero => exact h
  | succ k ih =>
    exact ⟨ih.kind, ih.label, ih.inputs, ih.outputs,
      (congrArg (fun reaction => reaction.state == "on") (ih.react _)).trans ih.state⟩

/-- A circuit of a switch and a chain of stages behind it. -/
structure Counts (on ready : Bool) (wire : WireId) (stages : List Stage) (c : Circuit) :
    Prop where
  nodup : (wire :: stages.flatMap Stage.wires).Nodup
  known : ∀ id ∈ wire :: stages.flatMap Stage.wires, id ∈ c.wires.ids
  gates : ∃ toggle gates, c.gates = toggle :: gates ∧ toggle.IsToggle on wire ∧
    Chain c.wires.isPowered ready wire stages gates

namespace Counts

variable {on ready : Bool} {wire : WireId} {stages : List Stage} {c : Circuit}

/-- The bits that the stages show. -/
def bits (stages : List Stage) (c : Circuit) : List Bool :=
  stages.map fun stage => c.wires.isPowered stage.bit

/-- The switch and the stages are in the order of their clocks. -/
theorem forward (h : Counts on ready wire stages c) :
    Gate.Forward c.gates ∧ (∀ gate ∈ c.gates, ∀ id ∈ gate.outputs, id ∉ gate.inputs) ∧
      (c.gates.flatMap Gate.outputs).Nodup := by
  obtain ⟨toggle, gates, hgates, htoggle, hchain⟩ := h.gates
  obtain ⟨hforward, hself⟩ := hchain.forward h.nodup
  have htoggle' : ∀ id, id ∉ toggle.inputs := by
    intro id
    rw [htoggle.inputs]
    exact List.not_mem_nil
  rw [hgates]
  refine ⟨List.pairwise_cons.2 ⟨fun _ _ id _ => htoggle' id, hforward⟩,
    List.forall_mem_cons.2 ⟨fun id _ => htoggle' id, hself⟩, ?_⟩
  rw [List.flatMap_cons, hchain.outputs, htoggle.outputs]
  exact h.nodup

/-- A simulation settles.  If it turns the switch on, then this is an edge. -/
theorem simulate (h : Counts on ready wire stages c) :
    c.simulate.1.converged = true ∧ Counts on true wire stages c.simulate.2 ∧
      c.simulate.2.wires.isPowered wire = on ∧
      bits stages c.simulate.2 =
        Chain.ripple (!c.wires.isPowered wire && on) (bits stages c) := by
  obtain ⟨toggle, gates, hgates, htoggle, hchain⟩ := h.gates
  obtain ⟨hforward, hself, hnodup⟩ := h.forward
  have hmem : toggle ∈ c.gates := hgates ▸ List.mem_cons_self
  -- The wire of the switch has its level after the first round.
  have hclock : ∀ k, c.signalAfter wire k = if k ≤ 0 then c.wires.isPowered wire else on := by
    intro k
    cases k with
    | zero => rfl
    | succ k =>
      have hdrive : (wire, on) ∈
          ((c.gateAfter toggle k).react fun id => c.signalAfter id k).drives := by
        rw [(htoggle.gateAfter c k).react]
        exact List.mem_singleton_self _
      rw [if_neg (Nat.not_succ_le_zero k)]
      exact Circuit.signalAfter_succ hforward hnodup hmem hdrive (h.known _ List.mem_cons_self)
  have hconverged := Circuit.converged_of_forward hforward hself
  obtain ⟨rest, hrest⟩ := Circuit.exists_iterate_eq_of_converged hconverged
  obtain ⟨settled, hsettled⟩ := hchain.iterate hforward hnodup
    (fun gate hgate => hgates ▸ List.mem_cons_of_mem toggle hgate)
    (fun id hid => h.known id (List.mem_cons_of_mem wire hid)) hclock
  obtain ⟨hchain', hbits⟩ := hsettled _ (le_max_right (rest + 1) settled)
  have hend := hrest (max (rest + 1) settled) (by omega)
  have hread : (fun id => c.signalAfter id (max (rest + 1) settled)) =
      c.simulate.2.wires.isPowered := by
    rw [← hend]
    rfl
  refine ⟨hconverged, ⟨h.nodup, ?_, ?_⟩, ?_, ?_⟩
  · rw [Circuit.ids_simulate]
    exact h.known
  · refine ⟨_, _, ?_, htoggle.gateAfter c (max (rest + 1) settled), hread ▸ hchain'⟩
    rw [← hend, Circuit.gates_iterate hforward, hgates, List.map_cons]
  · rw [← hread]
    exact (hclock _).trans (if_neg (by omega))
  · rw [bits, ← hread]
    exact hbits

end Counts

/-- The netlist in which all toggles are on or off. -/
def Netlist.setToggles (on : Bool) (n : Netlist) : Netlist :=
  n.setState (fun gate => gate.label == Builtin.toggle.name) (switchState on)

/-- Turning the switch of a chain does nothing else. -/
theorem Counts.setToggles {on ready : Bool} {wire : WireId} {stages : List Stage} {n : Netlist}
    (h : Counts on ready wire stages n.circuit) (next : Bool) :
    Counts next ready wire stages (n.setToggles next).circuit := by
  obtain ⟨toggle, gates, hgates, htoggle, hchain⟩ := h.gates
  refine ⟨h.nodup, h.known, { toggle with state := switchState next }, gates, ?_,
    ⟨htoggle.kind, htoggle.label, htoggle.inputs, htoggle.outputs, ?_⟩, hchain⟩
  · have hothers : gates.map (fun gate =>
        if gate.label == Builtin.toggle.name then { gate with state := switchState next }
        else gate) = gates := by
      refine (List.map_congr_left fun gate hgate => ?_).trans (List.map_id gates)
      rw [if_neg (by simpa using hchain.label_ne gate hgate)]
      rfl
    show n.circuit.gates.map _ = _
    rw [hgates, List.map_cons, hothers, if_pos (by simp [htoggle.label])]
  · cases next <;> rfl

/-! ## Presses -/

namespace Netlist

/-- Turns the toggles on and simulates. -/
def pushed (n : Netlist) : Circuit.Verdict × Netlist := (n.setToggles true).simulate

/-- Turns the toggles off and simulates. -/
def released (n : Netlist) : Circuit.Verdict × Netlist := (n.setToggles false).simulate

/-- Simulates, and then pushes and releases the toggles a number of times. -/
def afterPresses (n : Netlist) : Nat → Netlist
  | 0 => n.simulate.2
  | k + 1 => (n.afterPresses k).pushed.2.released.2

/-- The number of which the outputs show the binary digits, the lowest first. -/
def reading (n : Netlist) : Nat := Chain.number (n.outputs.map n.wires.isPowered)

theorem outputs_simulate (n : Netlist) : n.simulate.2.outputs = n.outputs := rfl

theorem outputs_pushed (n : Netlist) : n.pushed.2.outputs = n.outputs :=
  outputs_simulate (n.setToggles true)

theorem outputs_released (n : Netlist) : n.released.2.outputs = n.outputs :=
  outputs_simulate (n.setToggles false)

theorem outputs_afterPresses (n : Netlist) (k : Nat) :
    (n.afterPresses k).outputs = n.outputs := by
  induction k with
  | zero => exact outputs_simulate n
  | succ k ih => rw [afterPresses, outputs_released, outputs_pushed, ih]

end Netlist

namespace Counts

variable {wire : WireId} {stages : List Stage} {n : Netlist}

theorem reading_eq (h : n.outputs = stages.map Stage.bit) :
    n.reading = Chain.number (bits stages n.circuit) := by
  rw [Netlist.reading, h, List.map_map]
  rfl

/-- A push is an edge. -/
theorem pushed (h : Counts false true wire stages n.circuit)
    (hoff : n.wires.isPowered wire = false) :
    n.pushed.1.converged = true ∧ Counts true true wire stages n.pushed.2.circuit ∧
      n.pushed.2.wires.isPowered wire = true ∧
      bits stages n.pushed.2.circuit = Chain.ripple true (bits stages n.circuit) := by
  have hpushed := (h.setToggles true).simulate
  rw [← Netlist.simulate_fst, ← Netlist.circuit_simulate] at hpushed
  have hrise : (!(n.setToggles true).circuit.wires.isPowered wire && true) = true := by
    show (!n.wires.isPowered wire && true) = true
    rw [hoff]
    rfl
  rw [hrise] at hpushed
  exact hpushed

/-- A release is none. -/
theorem released {on : Bool} (h : Counts on true wire stages n.circuit) :
    n.released.1.converged = true ∧ Counts false true wire stages n.released.2.circuit ∧
      n.released.2.wires.isPowered wire = false ∧
      bits stages n.released.2.circuit = bits stages n.circuit := by
  have hreleased := (h.setToggles false).simulate
  rw [← Netlist.simulate_fst, ← Netlist.circuit_simulate, Bool.and_false,
    Chain.ripple_false] at hreleased
  exact hreleased

/-- An edge takes one away from what the stages show. -/
theorem number_pushed {k : Nat} (h : Counts false true wire stages n.circuit)
    (hoff : n.wires.isPowered wire = false)
    (hnumber : (Chain.number (bits stages n.circuit) : ℤ) = (-k : ℤ) % 2 ^ stages.length) :
    (Chain.number (bits stages n.pushed.2.circuit) : ℤ) =
      (-(k + 1 : ℕ) : ℤ) % 2 ^ stages.length := by
  have hlength : (bits stages n.circuit).length = stages.length := List.length_map _
  rw [(h.pushed hoff).2.2.2, Chain.number_ripple, hlength, hnumber, Int.emod_sub_emod]
  push_cast
  rw [neg_add']

section Off

variable (h : Counts false false wire stages n.circuit)
  (hzero : ∀ bit ∈ bits stages n.circuit, bit = false)

include h

/-- A chain that has not been simulated before settles. -/
theorem simulate_off :
    n.simulate.1.converged = true ∧ Counts false true wire stages n.simulate.2.circuit ∧
      n.simulate.2.wires.isPowered wire = false ∧
      bits stages n.simulate.2.circuit = bits stages n.circuit := by
  have hrest := h.simulate
  rw [← Netlist.simulate_fst, ← Netlist.circuit_simulate, Bool.and_false,
    Chain.ripple_false] at hrest
  exact hrest

include hzero

/-- After some presses the stages show the number of the presses, downwards from zero. -/
theorem afterPresses (k : Nat) :
    Counts false true wire stages (n.afterPresses k).circuit ∧
      (n.afterPresses k).wires.isPowered wire = false ∧
      (Chain.number (bits stages (n.afterPresses k).circuit) : ℤ) =
        (-k : ℤ) % 2 ^ stages.length := by
  induction k with
  | zero =>
    obtain ⟨-, hcounts, hoff, hbits⟩ := h.simulate_off
    rw [Netlist.afterPresses, hbits, Chain.number_eq_zero hzero]
    exact ⟨hcounts, hoff, rfl⟩
  | succ k ih =>
    obtain ⟨hcounts, hoff, hnumber⟩ := ih
    obtain ⟨-, hon, -, -⟩ := hcounts.pushed hoff
    obtain ⟨-, hcounts', hoff', hbits⟩ := hon.released
    rw [Netlist.afterPresses, hbits]
    exact ⟨hcounts', hoff', hcounts.number_pushed hoff hnumber⟩

/-- Outputs that are the bits of a chain count the presses, and every simulation
settles. -/
theorem reading_afterPresses (houtputs : n.outputs = stages.map Stage.bit) (k : Nat) :
    ((n.afterPresses k).reading : ℤ) = (-k : ℤ) % 2 ^ stages.length ∧
      (n.afterPresses k).pushed.1.converged = true ∧
      ((n.afterPresses k).pushed.2.reading : ℤ) = (-(k + 1 : ℕ) : ℤ) % 2 ^ stages.length ∧
      (n.afterPresses k).pushed.2.released.1.converged = true := by
  obtain ⟨hcounts, hoff, hnumber⟩ := h.afterPresses hzero k
  obtain ⟨hpushed, hon, -, -⟩ := hcounts.pushed hoff
  have houtputs' := (n.outputs_afterPresses k).trans houtputs
  refine ⟨?_, hpushed, ?_, hon.released.1⟩
  · rw [reading_eq houtputs']
    exact hnumber
  · rw [reading_eq ((n.afterPresses k).outputs_pushed.trans houtputs')]
    exact hcounts.number_pushed hoff hnumber

end Off

end Counts

end Gatework
