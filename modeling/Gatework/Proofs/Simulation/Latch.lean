import Gatework.Proofs.Simulation.Steps

/-!
# Latches

Two gates that feed each other hold a level as long as no input takes it away.  In a round
the two see each other at different times, since the last gate acts first.  What their
inputs are in the first rounds of a simulation therefore matters: they may still be what they
were before the step.

There are six groups.

* `Latch` is the four signals of such gates, and `Latch.round` what a round makes of them.
* Many rounds.  Inputs that command a level give it to the latch after four rounds, and a
  latch holds its level if the opposing input stays low (`Latch.trace`).
* `Netlist.Latches` says that a netlist obeys the last command of every run.
  `Netlist.latches_of_simulate` reduces it to single simulations.
* `Latch.Wiring` is where a latch is in a circuit, and `Latch.Wiring.Fits.simulate` what a
  simulation of the circuit leaves, once the gates in front of the latch have settled.
* `srLatch`, a latch that is set and reset.
* `dLatch`, a latch that follows its input while a clock is high.
-/

namespace Gatework

/-! ## One round -/

/-- The signals of two gates that feed each other, `q` and `nq`, and of the gates in front of
them that keep them off. -/
structure Latch where
  q : Bool
  nq : Bool
  againstQ : Bool
  againstNq : Bool
deriving DecidableEq

namespace Latch

/-- The latch that holds a level. -/
def holding (level : Bool) : Latch := ⟨level, !level, !level, level⟩

/-- The latch after a round.  The gate for `nq` comes last, so that what keeps `q` off sees
the new `nq`, and what keeps `nq` off the old `q`. -/
def round (set reset : Bool) (l : Latch) : Latch where
  q := !l.againstQ
  nq := !l.againstNq
  againstQ := reset || !l.againstNq
  againstNq := set || l.q

/-- The input that would take a level away. -/
def opposing (level set reset : Bool) : Bool := if level then reset else set

/-- The level that inputs command, if one of them is high. -/
def command (set reset : Bool) : Option Bool := if set || reset then some set else none

theorem round_holding {level set reset : Bool} (h : opposing level set reset = false) :
    (holding level).round set reset = holding level := by
  cases level with
  | true =>
    cases h
    cases set <;> rfl
  | false =>
    cases h
    cases reset <;> rfl

/-- The same command in four rounds is obeyed. -/
theorem round_four (level : Bool) (l : Latch) :
    (((l.round level (!level)).round level (!level)).round level (!level)).round level (!level) =
      holding level := by
  cases level <;> rfl

/-! ## Many rounds -/

section Rounds

variable {latch : Nat → Latch} {set reset : Nat → Bool}
  (hround : ∀ k, latch (k + 1) = (latch k).round (set k) (reset k))

include hround

theorem eq_holding_of_commanded {start : Nat} {level : Bool} (hset : ∀ k, start ≤ k → set k = level)
    (hreset : ∀ k, start ≤ k → reset k = !level) {k : Nat} (hk : start + 4 ≤ k) :
    latch k = holding level := by
  obtain ⟨j, rfl⟩ : ∃ j, k = j + 4 := ⟨k - 4, by omega⟩
  have hnext : ∀ i, start ≤ i → latch (i + 1) = (latch i).round level (!level) := by
    intro i hi
    rw [hround, hset i hi, hreset i hi]
  rw [hnext (j + 3) (by omega), hnext (j + 2) (by omega), hnext (j + 1) (by omega),
    hnext j (by omega), round_four]

theorem eq_holding_of_opposing {level : Bool} (hstart : latch 0 = holding level)
    (hopposing : ∀ k, opposing level (set k) (reset k) = false) (k : Nat) :
    latch k = holding level := by
  induction k with
  | zero => exact hstart
  | succ k ih => rw [hround, ih, round_holding (hopposing k)]

/-- A latch whose inputs are constant from some round on, and not both high, ends up with the
level that they command.  If they command none, then it holds its level, unless the opposing
input has been high in the rounds before. -/
theorem trace {start : Nat} {s r level : Bool} (hset : ∀ k, start ≤ k → set k = s)
    (hreset : ∀ k, start ≤ k → reset k = r) (hboth : (s && r) = false)
    (hlevel : command s r = some level ∨ command s r = none ∧ latch 0 = holding level ∧
      ∀ k < start, opposing level (set k) (reset k) = false) :
    (∀ k, start + 4 ≤ k → latch k = holding level) ∧ opposing level s r = false := by
  rcases hlevel with hsome | ⟨hnone, hstart, hbefore⟩
  · have hinputs : s = level ∧ r = !level := by
      revert hboth hsome
      cases s <;> cases r <;> cases level <;> decide
    obtain ⟨rfl, rfl⟩ := hinputs
    refine ⟨fun k hk => eq_holding_of_commanded hround hset hreset hk, ?_⟩
    cases s <;> rfl
  · have hopposing : opposing level s r = false := by
      revert hnone
      cases s <;> cases r <;> cases level <;> decide
    refine ⟨fun k _ => eq_holding_of_opposing hround hstart (fun j => ?_) k, hopposing⟩
    by_cases hj : j < start
    · exact hbefore j hj
    · rw [hset j (not_lt.1 hj), hreset j (not_lt.1 hj), hopposing]

end Rounds

end Latch

/-! ## Runs -/

/-- The last command of a longer run is the one of the last step, or else one before. -/
theorem getLast?_filterMap_concat {α β : Type} (f : α → Option β) (as : List α) (a : α) :
    ((as ++ [a]).filterMap f).getLast? = (f a).or (as.filterMap f).getLast? := by
  rw [List.filterMap_append]
  cases h : f a with
  | none => simp [h]
  | some b => simp [h]

namespace Netlist

/-- From the first command of a run on, every step settles, and the two outputs show the
level of the last command and its negation.  The run may begin with any signals. -/
def Latches (n : Netlist) (inputs : Bool × Bool → List (String × Bool))
    (allowed : Bool × Bool → Prop) (command : Bool × Bool → Option Bool) : Prop :=
  ∀ (signals : WireId → Bool) (steps : List (Bool × Bool)) (step : Bool × Bool),
    (∀ taken ∈ steps ++ [step], allowed taken) →
      ∀ level, ((steps ++ [step]).filterMap command).getLast? = some level →
        let result := ((n.withSignals signals).afterSteps (steps.map inputs)).stepped (inputs step)
        result.1.converged = true ∧
          result.2.outputs.map result.2.wires.isPowered = [level, !level]

/-- It is enough that each step obeys its command, or else holds the level. -/
theorem latches_of_step {n : Netlist} {inputs : Bool × Bool → List (String × Bool)}
    {allowed : Bool × Bool → Prop} {command : Bool × Bool → Option Bool}
    (Holds : Bool → (WireId → Bool) → Prop)
    (hstep : ∀ (m : Netlist) step level, m.unlit = n.unlit → allowed step →
      command step = some level ∨ command step = none ∧ Holds level m.wires.isPowered →
        (m.stepped (inputs step)).1.converged = true ∧
          Holds level (m.stepped (inputs step)).2.wires.isPowered ∧
          (m.stepped (inputs step)).2.outputs.map (m.stepped (inputs step)).2.wires.isPowered =
            [level, !level]) :
    n.Latches inputs allowed command := by
  intro signals steps step hallowed level hlast
  have hunlit : ∀ steps, ((n.withSignals signals).afterSteps steps).unlit = n.unlit := fun steps =>
    (unlit_afterSteps steps _).trans (unlit_withSignals signals n)
  have hlast' : ∀ {steps step m level}, (∀ level, (steps.filterMap command).getLast? = some level →
      Holds level (Netlist.wires m).isPowered) →
      ((steps ++ [step]).filterMap command).getLast? = some level →
        command step = some level ∨ command step = none ∧ Holds level m.wires.isPowered := by
    intro steps step m level hholds hlast
    rw [getLast?_filterMap_concat, Option.or_eq_some_iff] at hlast
    exact hlast.imp_right fun h => ⟨h.1, hholds level h.2⟩
  -- Between two steps the netlist holds the level of the last command.
  have hinv : (∀ taken ∈ steps, allowed taken) →
      ∀ level, (steps.filterMap command).getLast? = some level →
        Holds level ((n.withSignals signals).afterSteps (steps.map inputs)).wires.isPowered := by
    refine afterSteps_induction (P := fun steps m => (∀ taken ∈ steps, allowed taken) →
      ∀ level, (steps.filterMap command).getLast? = some level → Holds level m.wires.isPowered)
      (fun _ _ hnone => absurd hnone nofun)
      (fun steps step m hm ih hallowed level hlast => ?_) steps
    rw [List.forall_mem_append, List.forall_mem_singleton] at hallowed
    exact (hstep m step level (hm.trans (hunlit [])) hallowed.2
      (hlast' (ih hallowed.1) hlast)).2.1
  rw [List.forall_mem_append, List.forall_mem_singleton] at hallowed
  obtain ⟨hconverged, -, houtputs⟩ := hstep _ step level (hunlit _) hallowed.2
    (hlast' (hinv hallowed.1) hlast)
  exact ⟨hconverged, houtputs⟩

/-- A netlist in which two wires are set and two are shown obeys its commands, if its
circuit does in every simulation. -/
theorem latches_of_simulate {n : Netlist} {first second : String} {d : Layout} {i j o o' : WireId}
    (h : n.layout [first, second] = d) (hinputs : d.inputs = [some i, some j]) (hne : i ≠ j)
    (houtputs : d.outputs = [o, o']) {allowed : Bool × Bool → Prop}
    {command : Bool × Bool → Option Bool} (Holds : Bool → (WireId → Bool) → Prop)
    (hfree : ∀ level read read', (∀ id, id ≠ i → id ≠ j → read' id = read id) →
      Holds level read → Holds level read')
    (hsimulate : ∀ (c : Circuit) level, c.gates.map Gate.component = d.components →
      c.wires.ids = d.ids → allowed (c.wires.isPowered i, c.wires.isPowered j) →
      command (c.wires.isPowered i, c.wires.isPowered j) = some level ∨
        command (c.wires.isPowered i, c.wires.isPowered j) = none ∧
          Holds level c.wires.isPowered →
      c.simulate.1.converged = true ∧ Holds level c.simulate.2.wires.isPowered ∧
        c.simulate.2.wires.isPowered o = level ∧ c.simulate.2.wires.isPowered o' = !level) :
    n.Latches (inputPair first second) allowed command := by
  refine latches_of_step Holds fun m step level hm hallowed hlevel => ?_
  have hlayout : ∀ {m' : Netlist}, m'.unlit = m.unlit → m'.layout [first, second] = d :=
    fun hm' => (layout_eq_of_unlit_eq (hm'.trans hm) _).trans h
  have hset := hlayout (unlit_setInputs (inputPair first second step) m)
  obtain ⟨hi, hj, hothers⟩ := isPowered_setInputs_pair (hlayout rfl) hinputs hne step
  have hresult := hsimulate (m.setInputs (inputPair first second step)).circuit level
    (congrArg Layout.components hset) (congrArg Layout.ids hset)
  rw [wires_circuit, hi, hj] at hresult
  obtain ⟨hconverged, hholds, ho, ho'⟩ := hresult hallowed
    (hlevel.imp_right fun hheld => ⟨hheld.1, hfree level _ _ hothers hheld.2⟩)
  have hwires : (m.stepped (inputPair first second step)).2.wires =
      (m.setInputs (inputPair first second step)).circuit.simulate.2.wires :=
    congrArg Circuit.wires (circuit_stepped _ m)
  have hshown : (m.stepped (inputPair first second step)).2.outputs = [o, o'] :=
    (congrArg Layout.outputs (hlayout (unlit_stepped _ m))).trans houtputs
  rw [hwires, hshown]
  refine ⟨(congrArg Circuit.Verdict.converged (simulate_fst _)).trans hconverged, hholds, ?_⟩
  rw [List.map_cons, List.map_singleton, ho, ho']

end Netlist

/-! ## Latches in circuits -/

namespace Latch

/-- The wires of a latch in a circuit: those that its inputs depend on, its inputs, its four
signals, and the wires that show `q` and `nq`. -/
structure Wiring where
  front : List WireId
  set : WireId
  reset : WireId
  q : WireId
  nq : WireId
  againstQ : WireId
  againstNq : WireId
  outputs : WireId × WireId

namespace Wiring

variable {w : Wiring} {components : List Component}

/-- The latch that the signals show. -/
def latch (w : Wiring) (read : WireId → Bool) : Latch :=
  ⟨read w.q, read w.nq, read w.againstQ, read w.againstNq⟩

/-- Whether a latch is what some gates drive on its wires. -/
structure Fits (w : Wiring) (components : List Component) : Prop where
  nodup : (components.flatMap Component.outputs).Nodup
  driven : ∀ id ∈ components.flatMap Component.outputs, id ∈ w.front ∨
    id ∈ [w.q, w.nq, w.againstQ, w.againstNq] ∨ id = w.outputs.1 ∨ id = w.outputs.2
  follows : ∀ {before after}, Component.Follows before after components →
    w.latch after = (w.latch before).round (before w.set) (before w.reset) ∧
      after w.outputs.1 = before w.q ∧ after w.outputs.2 = before w.nq

/-- A circuit with a latch settles if the inputs of the latch do and are not both high.  Its
outputs show the level that the inputs command, or else the one that the latch held. -/
theorem Fits.simulate (h : w.Fits components) {c : Circuit}
    (hcomponents : c.gates.map Gate.component = components)
    (hknown : ∀ id ∈ components.flatMap Component.outputs, id ∈ c.wires.ids) {start : Nat}
    (hlimit : start + 5 < c.roundLimit)
    (hfront : ∀ id ∈ w.front, ∀ k, start ≤ k → c.signalAfter id k = c.signalAfter id start)
    {s r level : Bool} (hset : ∀ k, start ≤ k → c.signalAfter w.set k = s)
    (hreset : ∀ k, start ≤ k → c.signalAfter w.reset k = r) (hboth : (s && r) = false)
    (hlevel : command s r = some level ∨
      command s r = none ∧ w.latch c.wires.isPowered = holding level ∧
        ∀ k < start, opposing level (c.signalAfter w.set k) (c.signalAfter w.reset k) = false) :
    c.simulate.1.converged = true ∧ w.latch c.simulate.2.wires.isPowered = holding level ∧
      c.simulate.2.wires.isPowered w.outputs.1 = level ∧
      c.simulate.2.wires.isPowered w.outputs.2 = (!level) ∧
      opposing level s r = false ∧
      ∀ id, c.simulate.2.wires.isPowered id = c.signalAfter id (start + 5) := by
  have hfollows := fun k =>
    h.follows (Circuit.follows_signalAfter hcomponents h.nodup hknown k)
  have hround : ∀ k, w.latch (fun id => c.signalAfter id (k + 1)) =
      (w.latch fun id => c.signalAfter id k).round (c.signalAfter w.set k)
        (c.signalAfter w.reset k) := fun k => (hfollows k).1
  obtain ⟨hholds, hopposing⟩ :
      (∀ k, start + 4 ≤ k → (w.latch fun id => c.signalAfter id k) = holding level) ∧
        opposing level s r = false := trace hround hset hreset hboth hlevel
  have hshown : ∀ k, start + 5 ≤ k →
      c.signalAfter w.outputs.1 k = level ∧ c.signalAfter w.outputs.2 k = !level := by
    intro k hk
    obtain ⟨j, rfl⟩ : ∃ j, k = j + 1 := ⟨k - 1, by omega⟩
    obtain ⟨-, hfirst, hsecond⟩ := hfollows j
    have hlatch := hholds j (by omega)
    exact ⟨hfirst.trans (congrArg Latch.q hlatch), hsecond.trans (congrArg Latch.nq hlatch)⟩
  have hconstant : ∀ id ∈ components.flatMap Component.outputs, ∀ k, start + 5 ≤ k →
      c.signalAfter id k = c.signalAfter id (start + 5) := by
    intro id hid k hk
    rcases h.driven id hid with hmem | hmem | rfl | rfl
    · rw [hfront id hmem k (by omega), hfront id hmem (start + 5) (by omega)]
    · have hsame : w.latch (fun id => c.signalAfter id k) =
          w.latch fun id => c.signalAfter id (start + 5) := by
        rw [hholds k (by omega), hholds (start + 5) (by omega)]
      simp only [latch, Latch.mk.injEq] at hsame
      obtain ⟨hq, hnq, hagainstQ, hagainstNq⟩ := hsame
      simp only [List.mem_cons, List.not_mem_nil, or_false] at hmem
      rcases hmem with rfl | rfl | rfl | rfl
      · exact hq
      · exact hnq
      · exact hagainstQ
      · exact hagainstNq
    · rw [(hshown k hk).1, (hshown _ le_rfl).1]
    · rw [(hshown k hk).2, (hshown _ le_rfl).2]
  obtain ⟨hconverged, hfinal⟩ := Circuit.simulate_of_constant hcomponents hlimit hconstant
  rw [funext hfinal]
  exact ⟨hconverged, hholds _ (by omega), (hshown _ le_rfl).1, (hshown _ le_rfl).2, hopposing,
    fun _ => rfl⟩

end Wiring

end Latch

/-! ## A latch that is set and reset -/

/-- Wires one and two, passed in on three and four, set and reset the latch. -/
def srLatch : Layout where
  components :=
    [⟨.relay, [⟨1⟩], [⟨3⟩]⟩, ⟨.relay, [⟨2⟩], [⟨4⟩]⟩, ⟨.disj, [⟨4⟩, ⟨9⟩], [⟨6⟩]⟩,
      ⟨.negation, [⟨6⟩], [⟨7⟩]⟩, ⟨.disj, [⟨3⟩, ⟨7⟩], [⟨8⟩]⟩, ⟨.negation, [⟨8⟩], [⟨9⟩]⟩,
      ⟨.relay, [⟨7⟩], [⟨10⟩]⟩, ⟨.relay, [⟨9⟩], [⟨11⟩]⟩]
  ids := [⟨11⟩, ⟨10⟩, ⟨9⟩, ⟨8⟩, ⟨7⟩, ⟨6⟩, ⟨5⟩, ⟨4⟩, ⟨3⟩, ⟨2⟩, ⟨1⟩]
  inputs := [some ⟨1⟩, some ⟨2⟩]
  outputs := [⟨10⟩, ⟨11⟩]

def srWiring : Latch.Wiring where
  front := [⟨3⟩, ⟨4⟩]
  set := ⟨3⟩
  reset := ⟨4⟩
  q := ⟨7⟩
  nq := ⟨9⟩
  againstQ := ⟨6⟩
  againstNq := ⟨8⟩
  outputs := (⟨10⟩, ⟨11⟩)

/-- The equations of a round. -/
theorem follows_srLatch {before after : WireId → Bool}
    (h : Component.Follows before after srLatch.components) :
    after ⟨3⟩ = before ⟨1⟩ ∧ after ⟨4⟩ = before ⟨2⟩ ∧
      srWiring.latch after = (srWiring.latch before).round (before ⟨3⟩) (before ⟨4⟩) ∧
      after ⟨10⟩ = before ⟨7⟩ ∧ after ⟨11⟩ = before ⟨9⟩ := by
  have hgates : after ⟨3⟩ = before ⟨1⟩ ∧ after ⟨4⟩ = before ⟨2⟩ ∧
      after ⟨6⟩ = (before ⟨4⟩ || after ⟨9⟩) ∧ after ⟨7⟩ = (!before ⟨6⟩) ∧
      after ⟨8⟩ = (before ⟨3⟩ || before ⟨7⟩) ∧ after ⟨9⟩ = (!before ⟨8⟩) ∧
      after ⟨10⟩ = before ⟨7⟩ ∧ after ⟨11⟩ = before ⟨9⟩ := by
    simpa [srLatch, Component.Follows, Behaviour.level?, -Bool.not_eq_eq_eq_not] using h
  obtain ⟨h3, h4, h6, h7, h8, h9, h10, h11⟩ := hgates
  refine ⟨h3, h4, ?_, h10, h11⟩
  rw [Latch.Wiring.latch, srWiring, h6, h7, h8, h9]
  rfl

theorem fits_srWiring : srWiring.Fits srLatch.components where
  nodup := by decide
  driven := by decide
  follows := fun h => (follows_srLatch h).2.2

/-- Whether the latch holds a level, which no input opposes. -/
def SrHolds (level : Bool) (read : WireId → Bool) : Prop :=
  srWiring.latch read = .holding level ∧ Latch.opposing level (read ⟨3⟩) (read ⟨4⟩) = false

/-- A simulation obeys a set or a reset.  Without one, the inputs of the latch stay low in the
first round, in which they are those of the step before. -/
theorem simulate_srLatch (c : Circuit) (level : Bool)
    (hcomponents : c.gates.map Gate.component = srLatch.components)
    (hids : c.wires.ids = srLatch.ids)
    (hboth : (c.wires.isPowered ⟨1⟩ && c.wires.isPowered ⟨2⟩) = false)
    (hlevel : Latch.command (c.wires.isPowered ⟨1⟩) (c.wires.isPowered ⟨2⟩) = some level ∨
      Latch.command (c.wires.isPowered ⟨1⟩) (c.wires.isPowered ⟨2⟩) = none ∧
        SrHolds level c.wires.isPowered) :
    c.simulate.1.converged = true ∧ SrHolds level c.simulate.2.wires.isPowered ∧
      c.simulate.2.wires.isPowered ⟨10⟩ = level ∧ c.simulate.2.wires.isPowered ⟨11⟩ = !level := by
  have hknown : ∀ id ∈ srLatch.components.flatMap Component.outputs, id ∈ c.wires.ids := by
    rw [hids]
    decide
  have hfollows := fun k => follows_srLatch
    (Circuit.follows_signalAfter hcomponents fits_srWiring.nodup hknown k)
  have hpassed : ∀ k, 1 ≤ k → c.signalAfter ⟨3⟩ k = c.wires.isPowered ⟨1⟩ ∧
      c.signalAfter ⟨4⟩ k = c.wires.isPowered ⟨2⟩ := by
    intro k hk
    obtain ⟨j, rfl⟩ : ∃ j, k = j + 1 := ⟨k - 1, by omega⟩
    obtain ⟨h3, h4, -⟩ := hfollows j
    exact ⟨h3.trans (Circuit.signalAfter_of_not_mem_outputs hcomponents (by decide) j),
      h4.trans (Circuit.signalAfter_of_not_mem_outputs hcomponents (by decide) j)⟩
  have hfront : ∀ id ∈ srWiring.front, ∀ k, 1 ≤ k → c.signalAfter id k = c.signalAfter id 1 := by
    refine List.forall_mem_cons.2 ⟨fun k hk => ?_, List.forall_mem_singleton.2 fun k hk => ?_⟩
    · rw [(hpassed k hk).1, (hpassed 1 le_rfl).1]
    · rw [(hpassed k hk).2, (hpassed 1 le_rfl).2]
  obtain ⟨hconverged, hlatch, hfirst, hsecond, hopposing, hfinal⟩ :=
    fits_srWiring.simulate hcomponents hknown (Circuit.lt_roundLimit hcomponents (by decide)) hfront
      (fun k hk => (hpassed k hk).1) (fun k hk => (hpassed k hk).2) hboth
      (hlevel.imp_right fun hheld => ⟨hheld.1, hheld.2.1, fun k hk => by
        obtain rfl : k = 0 := by omega
        exact hheld.2.2⟩)
  refine ⟨hconverged, ⟨hlatch, ?_⟩, hfirst, hsecond⟩
  rw [hfinal, hfinal, (hpassed 6 (by decide)).1, (hpassed 6 (by decide)).2, hopposing]

/-- A netlist with such a latch obeys the last set or reset. -/
theorem latches_srLatch {n : Netlist} {first second : String}
    (h : n.layout [first, second] = srLatch) :
    n.Latches (Netlist.inputPair first second) (fun step => (step.1 && step.2) = false)
      fun step => Latch.command step.1 step.2 := by
  refine Netlist.latches_of_simulate h rfl (by decide) rfl SrHolds ?_ fun c level => ?_
  · intro level read read' hsame hholds
    unfold SrHolds srWiring Latch.Wiring.latch at *
    simpa (disch := decide) only [hsame] using hholds
  · exact simulate_srLatch c level

/-! ## A latch that follows its input while a clock is high -/

/-- Wire one is the clock and wire two the input, passed in on three and four.  They set the
latch by five and reset it by seven. -/
def dLatch : Layout where
  components :=
    [⟨.relay, [⟨1⟩], [⟨3⟩]⟩, ⟨.relay, [⟨2⟩], [⟨4⟩]⟩, ⟨.conj, [⟨3⟩, ⟨4⟩], [⟨5⟩]⟩,
      ⟨.negation, [⟨4⟩], [⟨6⟩]⟩, ⟨.conj, [⟨3⟩, ⟨6⟩], [⟨7⟩]⟩, ⟨.disj, [⟨7⟩, ⟨12⟩], [⟨9⟩]⟩,
      ⟨.negation, [⟨9⟩], [⟨10⟩]⟩, ⟨.disj, [⟨5⟩, ⟨10⟩], [⟨11⟩]⟩, ⟨.negation, [⟨11⟩], [⟨12⟩]⟩,
      ⟨.relay, [⟨10⟩], [⟨13⟩]⟩, ⟨.relay, [⟨12⟩], [⟨14⟩]⟩]
  ids := [⟨14⟩, ⟨13⟩, ⟨12⟩, ⟨11⟩, ⟨10⟩, ⟨9⟩, ⟨8⟩, ⟨7⟩, ⟨6⟩, ⟨5⟩, ⟨4⟩, ⟨3⟩, ⟨2⟩, ⟨1⟩]
  inputs := [some ⟨1⟩, some ⟨2⟩]
  outputs := [⟨13⟩, ⟨14⟩]

def dWiring : Latch.Wiring where
  front := [⟨3⟩, ⟨4⟩, ⟨5⟩, ⟨6⟩, ⟨7⟩]
  set := ⟨5⟩
  reset := ⟨7⟩
  q := ⟨10⟩
  nq := ⟨12⟩
  againstQ := ⟨9⟩
  againstNq := ⟨11⟩
  outputs := (⟨13⟩, ⟨14⟩)

/-- The equations of a round. -/
theorem follows_dLatch {before after : WireId → Bool}
    (h : Component.Follows before after dLatch.components) :
    (after ⟨3⟩ = before ⟨1⟩ ∧ after ⟨4⟩ = before ⟨2⟩ ∧
      after ⟨5⟩ = (before ⟨3⟩ && before ⟨4⟩) ∧ after ⟨6⟩ = (!before ⟨4⟩) ∧
      after ⟨7⟩ = (before ⟨3⟩ && before ⟨6⟩)) ∧
      dWiring.latch after = (dWiring.latch before).round (before ⟨5⟩) (before ⟨7⟩) ∧
      after ⟨13⟩ = before ⟨10⟩ ∧ after ⟨14⟩ = before ⟨12⟩ := by
  have hgates : after ⟨3⟩ = before ⟨1⟩ ∧ after ⟨4⟩ = before ⟨2⟩ ∧
      after ⟨5⟩ = (before ⟨3⟩ && before ⟨4⟩) ∧ after ⟨6⟩ = (!before ⟨4⟩) ∧
      after ⟨7⟩ = (before ⟨3⟩ && before ⟨6⟩) ∧
      after ⟨9⟩ = (before ⟨7⟩ || after ⟨12⟩) ∧ after ⟨10⟩ = (!before ⟨9⟩) ∧
      after ⟨11⟩ = (before ⟨5⟩ || before ⟨10⟩) ∧ after ⟨12⟩ = (!before ⟨11⟩) ∧
      after ⟨13⟩ = before ⟨10⟩ ∧ after ⟨14⟩ = before ⟨12⟩ := by
    simpa [dLatch, Component.Follows, Behaviour.level?, -Bool.not_eq_eq_eq_not] using h
  obtain ⟨h3, h4, h5, h6, h7, h9, h10, h11, h12, h13, h14⟩ := hgates
  refine ⟨⟨h3, h4, h5, h6, h7⟩, ?_, h13, h14⟩
  rw [Latch.Wiring.latch, dWiring, h9, h10, h11, h12]
  rfl

theorem fits_dWiring : dWiring.Fits dLatch.components where
  nodup := by decide
  driven := by decide
  follows := fun h => (follows_dLatch h).2

/-- Whether the latch holds a level, which no input opposes now or in the next round. -/
def DHolds (level : Bool) (read : WireId → Bool) : Prop :=
  dWiring.latch read = .holding level ∧ Latch.opposing level (read ⟨5⟩) (read ⟨7⟩) = false ∧
    Latch.opposing level (read ⟨3⟩ && read ⟨4⟩) (read ⟨3⟩ && read ⟨6⟩) = false

theorem Latch.command_clocked (clock d : Bool) :
    command (clock && d) (clock && !d) = if clock then some d else none := by
  cases clock <;> cases d <;> rfl

theorem Latch.low_of_command_clocked {clock d : Bool}
    (h : command (clock && d) (clock && !d) = none) : clock = false := by
  rw [command_clocked] at h
  cases clock with
  | true => cases h
  | false => rfl

section DLatch

variable {c : Circuit} (hcomponents : c.gates.map Gate.component = dLatch.components)
  (hids : c.wires.ids = dLatch.ids)

include hids in
theorem known_dLatch : ∀ id ∈ dLatch.components.flatMap Component.outputs, id ∈ c.wires.ids := by
  rw [hids]
  decide

include hcomponents hids

theorem round_dLatch (k : Nat) :
    c.signalAfter ⟨5⟩ (k + 1) = (c.signalAfter ⟨3⟩ k && c.signalAfter ⟨4⟩ k) ∧
      c.signalAfter ⟨6⟩ (k + 1) = (!c.signalAfter ⟨4⟩ k) ∧
      c.signalAfter ⟨7⟩ (k + 1) = (c.signalAfter ⟨3⟩ k && c.signalAfter ⟨6⟩ k) :=
  (follows_dLatch (Circuit.follows_signalAfter hcomponents fits_dWiring.nodup
    (known_dLatch hids) k)).1.2.2

theorem passed_dLatch (k : Nat) : c.signalAfter ⟨3⟩ (k + 1) = c.wires.isPowered ⟨1⟩ ∧
    c.signalAfter ⟨4⟩ (k + 1) = c.wires.isPowered ⟨2⟩ := by
  obtain ⟨⟨h3, h4, -⟩, -⟩ := follows_dLatch
    (Circuit.follows_signalAfter hcomponents fits_dWiring.nodup (known_dLatch hids) k)
  exact ⟨h3.trans (Circuit.signalAfter_of_not_mem_outputs hcomponents (by decide) k),
    h4.trans (Circuit.signalAfter_of_not_mem_outputs hcomponents (by decide) k)⟩

/-- The gates in front of the latch have settled after three rounds. -/
theorem front_dLatch {k : Nat} (hk : 3 ≤ k) :
    c.signalAfter ⟨3⟩ k = c.wires.isPowered ⟨1⟩ ∧ c.signalAfter ⟨4⟩ k = c.wires.isPowered ⟨2⟩ ∧
      c.signalAfter ⟨5⟩ k = (c.wires.isPowered ⟨1⟩ && c.wires.isPowered ⟨2⟩) ∧
      c.signalAfter ⟨6⟩ k = (!c.wires.isPowered ⟨2⟩) ∧
      c.signalAfter ⟨7⟩ k = (c.wires.isPowered ⟨1⟩ && !c.wires.isPowered ⟨2⟩) := by
  obtain ⟨j, rfl⟩ : ∃ j, k = j + 3 := ⟨k - 3, by omega⟩
  obtain ⟨h3, h4⟩ := passed_dLatch hcomponents hids (j + 2)
  obtain ⟨h3', h4'⟩ := passed_dLatch hcomponents hids (j + 1)
  obtain ⟨-, h4''⟩ := passed_dLatch hcomponents hids j
  obtain ⟨h5, h6, h7⟩ := round_dLatch hcomponents hids (j + 2)
  obtain ⟨-, h6', -⟩ := round_dLatch hcomponents hids (j + 1)
  rw [h4''] at h6'
  rw [h3', h4'] at h5
  rw [h4'] at h6
  rw [h3', h6'] at h7
  exact ⟨h3, h4, h5, h6, h7⟩

/-- When the clock has fallen, the inputs of the latch are low from the third round on.  In the
first two they are those of the step before, whatever the input does. -/
theorem opposing_dLatch {level : Bool} (hlow : c.wires.isPowered ⟨1⟩ = false)
    (hheld : DHolds level c.wires.isPowered) {k : Nat} (hk : k < 3) :
    Latch.opposing level (c.signalAfter ⟨5⟩ k) (c.signalAfter ⟨7⟩ k) = false := by
  obtain ⟨-, hnow, hnext⟩ := hheld
  match k, hk with
  | 0, _ => exact hnow
  | 1, _ =>
    obtain ⟨h5, -, h7⟩ := round_dLatch hcomponents hids 0
    rw [h5, h7]
    exact hnext
  | 2, _ =>
    obtain ⟨h5, -, h7⟩ := round_dLatch hcomponents hids 1
    rw [h5, h7, (passed_dLatch hcomponents hids 0).1, hlow]
    cases level <;> rfl

/-- A simulation with a high clock takes the input over, and one with a low clock leaves the
latch as it is. -/
theorem simulate_dLatch (level : Bool)
    (hlevel : (if c.wires.isPowered ⟨1⟩ then some (c.wires.isPowered ⟨2⟩) else none) =
        some level ∨
      (if c.wires.isPowered ⟨1⟩ then some (c.wires.isPowered ⟨2⟩) else none) = none ∧
        DHolds level c.wires.isPowered) :
    c.simulate.1.converged = true ∧ DHolds level c.simulate.2.wires.isPowered ∧
      c.simulate.2.wires.isPowered ⟨13⟩ = level ∧ c.simulate.2.wires.isPowered ⟨14⟩ = !level := by
  have hlate := fun k (hk : 3 ≤ k) => front_dLatch hcomponents hids hk
  have hfront : ∀ id ∈ dWiring.front, ∀ k, 3 ≤ k → c.signalAfter id k = c.signalAfter id 3 := by
    intro id hid k hk
    obtain ⟨h3, h4, h5, h6, h7⟩ := hlate k hk
    obtain ⟨h3', h4', h5', h6', h7'⟩ := hlate 3 le_rfl
    simp only [dWiring, List.mem_cons, List.not_mem_nil, or_false] at hid
    rcases hid with rfl | rfl | rfl | rfl | rfl
    · rw [h3, h3']
    · rw [h4, h4']
    · rw [h5, h5']
    · rw [h6, h6']
    · rw [h7, h7']
  have hboth : ((c.wires.isPowered ⟨1⟩ && c.wires.isPowered ⟨2⟩) &&
      (c.wires.isPowered ⟨1⟩ && !c.wires.isPowered ⟨2⟩)) = false := by
    cases c.wires.isPowered ⟨1⟩ <;> cases c.wires.isPowered ⟨2⟩ <;> rfl
  rw [← Latch.command_clocked] at hlevel
  obtain ⟨hconverged, hlatch, hfirst, hsecond, hopposing, hfinal⟩ :=
    fits_dWiring.simulate hcomponents (known_dLatch hids)
      (Circuit.lt_roundLimit hcomponents (by decide)) hfront
      (fun k hk => (hlate k hk).2.2.1) (fun k hk => (hlate k hk).2.2.2.2) hboth
      (hlevel.imp_right fun ⟨hnone, hheld⟩ => ⟨hnone, hheld.1, fun k hk =>
        opposing_dLatch hcomponents hids (Latch.low_of_command_clocked hnone) hheld hk⟩)
  obtain ⟨h3, h4, h5, h6, h7⟩ := hlate 8 (by decide)
  refine ⟨hconverged, ⟨hlatch, ?_, ?_⟩, hfirst, hsecond⟩
  · rw [hfinal, hfinal, h5, h7, hopposing]
  · rw [hfinal, hfinal, hfinal, h3, h4, h6, hopposing]

end DLatch

/-- A netlist with such a latch obeys the last step with a high clock. -/
theorem latches_dLatch {n : Netlist} {first second : String}
    (h : n.layout [first, second] = dLatch) :
    n.Latches (Netlist.inputPair first second) (fun _ => True)
      fun step => if step.1 then some step.2 else none := by
  refine Netlist.latches_of_simulate h rfl (by decide) rfl DHolds ?_ fun c level => ?_
  · intro level read read' hsame hholds
    unfold DHolds dWiring Latch.Wiring.latch at *
    simpa (disch := decide) only [hsame] using hholds
  · exact fun hcomponents hids _ => simulate_dLatch hcomponents hids level

end Gatework
