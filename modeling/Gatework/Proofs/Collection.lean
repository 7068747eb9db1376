import Gatework.Program
import Gatework.Proofs.Expansion.DepthLimit
import Gatework.Proofs.Forest.Unplaced
import Gatework.Proofs.Simulation.Latch
import Gatework.Proofs.Simulation.Tally

/-!
# Circuits of the collections

The latches and the counter that descriptions can import do what their names say, in every
run.  A run of a latch may begin with any signals.  The results are about texts, from their
characters to the signals of their outputs.

There are three groups.

* Netlists of texts that import a collection.  They are computed from the characters of the
  collection, under one limit on the open scopes, and are the same under looser ones
  (`Netlist.exists_ofText_of_characters`).
* The latches hold the level of the last command (`Collection.latches_ofText`).
* The counter counts the edges of its clock (`Collection.counts_ofText`).
-/

namespace Gatework

/-! ## Imported characters -/

namespace Forest

/-- The answer to imports, if one collection is given by its characters.  To take the
characters of a long text out of it is much work. -/
def importCharacters (name : String) (chars : List Char) (origin : Origin) : Scaffold.Importer :=
  fun path =>
    if path = name then
      (resume (fun _ => .error .unknownCollection) .empty (readFrom 0 .start chars)).mapError
        .faultyCollection
    else
      importCollection origin path

theorem importCollection_eq {collection : Collection} {chars : List Char}
    (hname : Collection.isName collection.name = true)
    (hfind : Collection.find? collection.name = some collection)
    (hchars : collection.text = String.ofList chars) (origin : Origin) :
    importCollection origin = importCharacters collection.name chars origin := by
  funext path
  unfold importCharacters
  split
  · next hpath =>
    have hread : ofTextWith (fun _ => .error .unknownCollection) collection.text =
        resume (fun _ => .error .unknownCollection) .empty (readFrom 0 .start chars) := by
      rw [ofTextWith_eq_resume, Reading.ofText, hchars, String.toList_ofList]
    rw [hpath, importCollection, if_pos hname, hfind]
    dsimp only
    rw [hread]
    cases resume (fun _ => .error .unknownCollection) .empty (readFrom 0 .start chars) <;> rfl
  · rfl

end Forest

namespace Netlist

/-- What is seen of the netlist of a text under a limit on the open scopes, is seen of it under
a looser one. -/
theorem exists_ofText_of_characters {α : Type} (see : Netlist → α) {seen : α}
    {origin : Forest.Origin} (collection : Collection) {text : String} {limit limit' : UInt64}
    (hname : Collection.isName collection.name = true)
    (hfind : Collection.find? collection.name = some collection) (hlimit : limit ≠ 0)
    (hlooser : limit ≤ limit' ∨ limit' = 0)
    (h : ∃ chars, collection.text = String.ofList chars ∧
      ((Forest.resume (Forest.importCharacters collection.name chars origin) .empty
        (Reading.ofText text)).toOption.bind fun nodes =>
          (ofForest limit nodes).toOption.map see) = some seen) :
    ∃ n, ofText origin limit' text = .ok n ∧ see n = seen := by
  obtain ⟨chars, hchars, hcomputed⟩ := h
  have hread : Forest.ofText origin text =
      Forest.resume (Forest.importCharacters collection.name chars origin) .empty
        (Reading.ofText text) := by
    rw [Forest.ofText, Forest.importCollection_eq hname hfind hchars, Forest.ofTextWith_eq_resume]
  rw [← hread] at hcomputed
  cases hnodes : Forest.ofText origin text with
  | error fault =>
    rw [hnodes] at hcomputed
    cases hcomputed
  | ok nodes =>
    rw [hnodes] at hcomputed
    obtain ⟨n, hn, hseen⟩ := exists_of_toOption_map hcomputed
    refine ⟨n, ?_, hseen⟩
    rw [ofText, hnodes]
    show (ofForest limit' nodes).mapError ProgramError.expansion = _
    rw [ofForest_eq_ok_of_looser hlimit hlooser hn]
    rfl

end Netlist

namespace Collection

/-! ## Latches -/

/-- A latch that is set by `s` and reset by `r`. -/
def srText : String := "import latch\nlet q nq = srlatch2(s r)\n(q nq)"

/-- A latch that follows `d` while `clock` is high. -/
def dText : String := "import latch\nlet q nq = dlatch2(clock d)\n(q nq)"

set_option maxRecDepth 20000 in
/-- Two scopes are open at once in the expansion of the text. -/
theorem exists_layout_srText (origin : Forest.Origin) {limit : UInt64}
    (hlimit : 2 ≤ limit ∨ limit = 0) :
    ∃ n, Netlist.ofText origin limit srText = .ok n ∧ n.layout ["s", "r"] = srLatch := by
  refine Netlist.exists_ofText_of_characters _ latch rfl rfl (by decide) hlimit ⟨_, rfl, ?_⟩
  cases origin <;> decide +kernel

set_option maxRecDepth 20000 in
theorem exists_layout_dText (origin : Forest.Origin) {limit : UInt64}
    (hlimit : 2 ≤ limit ∨ limit = 0) :
    ∃ n, Netlist.ofText origin limit dText = .ok n ∧ n.layout ["clock", "d"] = dLatch := by
  refine Netlist.exists_ofText_of_characters _ latch rfl rfl (by decide) hlimit ⟨_, rfl, ?_⟩
  cases origin <;> decide +kernel

/-- The latches obey the last command.  The first one is set by `s` and reset by `r`, which
are not both high.  The second one follows `d` while the clock is high, whether the two change
together or not.  From the first command on all steps settle, and the outputs are the level
and its negation. -/
theorem latches_ofText (origin : Forest.Origin) {limit : UInt64} (hlimit : 2 ≤ limit ∨ limit = 0) :
    (∃ n, Netlist.ofText origin limit srText = .ok n ∧
      n.Latches (Netlist.inputPair "s" "r") (fun step => (step.1 && step.2) = false)
        fun step => if step.1 || step.2 then some step.1 else none) ∧
    ∃ n, Netlist.ofText origin limit dText = .ok n ∧
      n.Latches (Netlist.inputPair "clock" "d") (fun _ => True)
        fun step => if step.1 then some step.2 else none := by
  obtain ⟨n, hn, hlayout⟩ := exists_layout_srText origin hlimit
  obtain ⟨m, hm, hlayout'⟩ := exists_layout_dText origin hlimit
  exact ⟨⟨n, hn, latches_srLatch hlayout⟩, m, hm, latches_dLatch hlayout'⟩

/-- Whatever their signals are at first, one latch holds the level to which it has been set,
and the other one its input when the clock falls and the input changes together with it. -/
theorem latches_ofText_holding : 2 ≤ defaultLimit ∧
    (∃ n, Netlist.ofText .client defaultLimit srText = .ok n ∧ ∀ signals,
      let result := ((n.withSignals signals).afterSteps
        ([(false, true), (true, false)].map (Netlist.inputPair "s" "r"))).stepped
          (Netlist.inputPair "s" "r" (false, false))
      result.1.converged = true ∧
        result.2.outputs.map result.2.wires.isPowered = [true, false]) ∧
    ∃ n, Netlist.ofText .client defaultLimit dText = .ok n ∧ ∀ signals,
      let result := ((n.withSignals signals).afterSteps
        ([(true, true)].map (Netlist.inputPair "clock" "d"))).stepped
          (Netlist.inputPair "clock" "d" (false, false))
      result.1.converged = true ∧
        result.2.outputs.map result.2.wires.isPowered = [true, false] := by
  have hlimit : 2 ≤ defaultLimit := by decide
  obtain ⟨⟨n, hn, hset⟩, m, hm, hfollows⟩ := latches_ofText .client (Or.inl hlimit)
  refine ⟨hlimit, ⟨n, hn, fun signals => ?_⟩, m, hm, fun signals => ?_⟩
  · exact hset signals [(false, true), (true, false)] (false, false) (by decide) true rfl
  · exact hfollows signals [(true, true)] (false, false) (fun _ _ => trivial) true rfl

/-! ## The counter -/

/-- A counter of the edges of `clock`, which `reset` turns off. -/
def counterText : String :=
  "import counter\nlet c1 c2 c4 c8 = counter8(clock reset)\n(c1 c2 c4 c8)"

set_option maxRecDepth 20000 in
theorem exists_layout_counterText (origin : Forest.Origin) {limit : UInt64}
    (hlimit : 2 ≤ limit ∨ limit = 0) :
    ∃ n, Netlist.ofText origin limit counterText = .ok n ∧
      (n.layout ["clock", "reset"], n.wires.latest.all fun wire => !wire.powered,
        n.gates.all fun gate => gate.state == "") = (tally, true, true) := by
  refine Netlist.exists_ofText_of_characters
    (fun n => (n.layout ["clock", "reset"], n.wires.latest.all fun wire => !wire.powered,
      n.gates.all fun gate => gate.state == "")) counter rfl rfl (by decide) hlimit ⟨_, rfl, ?_⟩
  cases origin <;> decide +kernel

/-- The counter counts the steps in which its clock is high and was low in the step before,
modulo sixteen, and starts again from zero in every step with a high reset.  All steps
settle. -/
theorem counts_ofText (origin : Forest.Origin) {limit : UInt64} (hlimit : 2 ≤ limit ∨ limit = 0) :
    ∃ n, Netlist.ofText origin limit counterText = .ok n ∧ n.outputs.length = 4 ∧
      ∀ (steps : List (Bool × Bool)) (step : Bool × Bool),
        let result := (n.afterSteps (steps.map (Netlist.inputPair "clock" "reset"))).stepped
          (Netlist.inputPair "clock" "reset" step)
        result.1.converged = true ∧
          result.2.reading = ((steps ++ [step]).foldl tick (false, 0)).2 := by
  obtain ⟨n, hn, hseen⟩ := exists_layout_counterText origin hlimit
  simp only [Prod.mk.injEq, List.all_eq_true, Bool.not_eq_true', beq_iff_eq] at hseen
  obtain ⟨hlayout, hdark, hstates⟩ := hseen
  refine ⟨n, hn, congrArg (List.length ∘ Layout.outputs) hlayout,
    Netlist.reading_of_tally hlayout (fun id => ?_) hstates⟩
  rw [Arena.isPowered]
  cases hfind : n.wires.find? id with
  | none => rfl
  | some wire => exact hdark wire (Arena.find?_eq_some_iff.1 hfind).1

/-- Two edges are counted, of which the second has a long clock.  A step with a high reset
clears the bits. -/
theorem counts_ofText_edges : 2 ≤ defaultLimit ∧
    ∃ n, Netlist.ofText .client defaultLimit counterText = .ok n ∧ n.outputs.length = 4 ∧
      (let result := (n.afterSteps ([(true, false), (false, false), (true, false)].map
          (Netlist.inputPair "clock" "reset"))).stepped
            (Netlist.inputPair "clock" "reset" (true, false));
        result.1.converged = true ∧ result.2.reading = 2) ∧
      let result := (n.afterSteps ([(true, false), (false, false)].map
          (Netlist.inputPair "clock" "reset"))).stepped
            (Netlist.inputPair "clock" "reset" (true, true))
      result.1.converged = true ∧ result.2.reading = 0 := by
  have hlimit : 2 ≤ defaultLimit := by decide
  have htwo : (([(true, false), (false, false), (true, false)] ++ [(true, false)]).foldl tick
      (false, 0)).2 = 2 := by decide
  have hzero : (([(true, false), (false, false)] ++ [(true, true)]).foldl tick
      (false, 0)).2 = 0 := by decide
  obtain ⟨n, hn, hlength, hcounts⟩ := counts_ofText .client (Or.inl hlimit)
  obtain ⟨hcounted, hreading⟩ :=
    hcounts [(true, false), (false, false), (true, false)] (true, false)
  obtain ⟨hcleared, hreading'⟩ := hcounts [(true, false), (false, false)] (true, true)
  exact ⟨hlimit, n, hn, hlength, ⟨hcounted, hreading.trans htwo⟩, hcleared,
    hreading'.trans hzero⟩

end Collection

end Gatework
