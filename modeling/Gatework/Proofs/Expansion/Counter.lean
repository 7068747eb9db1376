import Gatework.Proofs.Expansion.DepthLimit
import Gatework.Proofs.Expansion.Drivers
import Gatework.Proofs.Expansion.WellFormed
import Gatework.Proofs.Forest.Unplaced
import Gatework.Proofs.Simulation.Ripple
import Std.Data.String.ToNat

/-!
# Netlists of counters

A counter is described by a switch, a flip-flop for each bit with the bit before it as
its clock, and the group of the bits.  The expansion of this description is computed here
for any number of bits, and gives a switch with a chain of stages behind it.

Two numbers bound the work.  The wires of the counter have to be numbered, so there are
fewer than `UInt32.size` of them.  The descent has to go as deep as the members of the
group, which no limit forbids (`three_le_nestingBound`).

There are five groups.

* The wires of a draft are off (`Draft.Reaches.unlit`).
* Runs put together.  The inversion lemmas of runs are equivalences, so a run of a node is
  had from runs of its parts.
* Gates on new wires, while there are numbers for them.
* `Counter.forest` is the description.  Its names differ, so an assignment binds a new one.
* Drafts of counters.  `Bound` says which wires the names are, `Grown` says what has been
  added, and `exists_stages` is the induction over the bits.  `exists_ofForest` is the
  result for netlists.
-/

namespace Gatework

/-! ## Wires that are off -/

namespace Arena

/-- Whether the wires are powered, the latest first. -/
def flags (a : Arena) : List Bool := a.latest.map Wire.powered

/-- No wire is powered. -/
def Unlit (a : Arena) : Prop := ∀ powered ∈ a.flags, powered = false

theorem Unlit.isPowered {a : Arena} (h : a.Unlit) (id : WireId) : a.isPowered id = false := by
  rw [Arena.isPowered]
  cases hfind : a.find? id with
  | none => rfl
  | some wire => exact h wire.powered (List.mem_map_of_mem (find?_eq_some_iff.1 hfind).1)

theorem Unlit.insert_fresh {a : Arena} (h : a.Unlit) (id : WireId) (desc : Option String) :
    (a.insert (.fresh id desc)).Unlit := by
  rw [insert]
  split
  · exact List.forall_mem_cons.2 ⟨rfl, h⟩
  · intro powered hpowered
    rw [flags, latest_adjust, List.map_map] at hpowered
    obtain ⟨wire, hwire, rfl⟩ := List.mem_map.1 hpowered
    rw [Function.comp_apply]
    split
    · rfl
    · exact h _ (List.mem_map_of_mem hwire)

theorem flags_adjust {id : WireId} {f : Wire → Wire}
    {keeps : ∀ wire, wire.id = id → (f wire).id = id} (a : Arena)
    (hf : ∀ wire, (f wire).powered = wire.powered) : (a.adjust id f keeps).flags = a.flags := by
  rw [flags, flags, latest_adjust, List.map_map]
  refine List.map_congr_left fun wire _ => ?_
  rw [Function.comp_apply]
  split
  · exact hf wire
  · rfl

theorem flags_connect (gate : Gate) (a : Arena) : (a.connect gate).flags = a.flags :=
  connect_eq (fun _ _ a => flags_adjust a fun _ => rfl) (fun _ _ a => flags_adjust a fun _ => rfl)
    gate a

theorem Unlit.connect {a : Arena} (h : a.Unlit) (gate : Gate) : (a.connect gate).Unlit := by
  rw [Unlit, flags_connect]
  exact h

end Arena

namespace Draft

variable {q : Node → Bool} {limit : UInt64} {d d' : Draft}

theorem unlit_newWires (h : d.wires.Unlit) (count : Nat) : (d.newWires count).2.wires.Unlit := by
  induction count generalizing d with
  | zero => exact h
  | succ count ih => exact ih (h.insert_fresh ⟨d.lastWire + 1⟩ none)

/-- Changes turn no wire on. -/
theorem Change.unlit (h : Change q limit d d') (hd : d.wires.Unlit) : d'.wires.Unlit := by
  rcases h.circuit_cases with ⟨_, _, _, count, _, -, rfl⟩ | ⟨_, rfl⟩ | ⟨name, wire, -, rfl⟩ | hsame
  · exact (unlit_newWires hd count).connect _
  · exact hd.insert_fresh _ _
  · obtain ⟨_, _, _, _, heq⟩ := d.assign_eq name wire
    rw [heq]
    exact hd
  · rw [hsame.wires]
    exact hd

theorem Reaches.unlit (h : Reaches q limit empty d) : d.wires.Unlit := by
  induction h with
  | refl => exact fun powered hpowered => absurd hpowered List.not_mem_nil
  | tail _ hchange ih => exact hchange.unlit ih

end Draft

/-! ## Runs put together -/

namespace Expansion

variable {limit : UInt64} {fuel : Nat} {pos : Position} {rest : List Node} {d d' between : Draft}

theorem runs_newWires_self (count : Nat) (d : Draft) :
    Runs (newWires count) d (d.newWires count).1 (d.newWires count).2 := by
  induction count generalizing d with
  | zero => exact runs_pure.2 ⟨rfl, rfl⟩
  | succ count ih =>
    exact runs_bind.2 ⟨_, _, runs_newWire.2 rfl, runs_bind.2 ⟨_, _, ih _, runs_pure.2 ⟨rfl, rfl⟩⟩⟩

theorem runs_step_identifier {name : String} {wire : WireId} (h : d.lookup? name = some wire) :
    Runs (step limit (fuel + 1) (.identifier pos name) rest) d (.single [wire]) d := by
  refine runs_bind.2 ⟨wire, d, runs_bind.2 ⟨d, d, runs_get.2 ⟨rfl, rfl⟩, ?_⟩,
    runs_pure.2 ⟨rfl, rfl⟩⟩
  rw [h]
  exact runs_pure.2 ⟨rfl, rfl⟩

theorem runs_step_one {wire : WireId}
    (h : d.place .source "" [] 1 d.scope.id = ([wire], d')) :
    Runs (step limit (fuel + 1) (.literal pos true) rest) d (.single [wire]) d' :=
  runs_bind.2 ⟨d, d, runs_get.2 ⟨rfl, rfl⟩, runs_bind.2 ⟨_, _, runs_newGate.2 h,
    runs_pure.2 ⟨rfl, rfl⟩⟩⟩

theorem runs_step_builtin {builtin : Builtin} {args : List Node} {arguments : List (List WireId)}
    {outputs : List WireId}
    (hargs : Runs (valuesEach (step limit fuel) args) d arguments between)
    (hmin : builtin.minInputs ≤ arguments.flatten.length)
    (h : between.place .builtin builtin.name arguments.flatten builtin.outputs between.scope.id =
      (outputs, d')) :
    Runs (step limit (fuel + 1) (.invocation pos builtin.name args) rest) d (.single outputs)
      d' := by
  have hname : Builtin.ofName? builtin.name = some builtin := by
    cases builtin <;> rfl
  refine runs_bind.2 ⟨outputs, d', ?_, runs_pure.2 ⟨rfl, rfl⟩⟩
  rw [invoke, hname]
  refine runs_bind.2 ⟨_, _, hargs, ?_⟩
  dsimp only
  rw [if_neg (Nat.not_lt.2 hmin)]
  obtain ⟨wires, last, heq⟩ := between.newWires_eq builtin.outputs
  have hscope : (between.newWires builtin.outputs).2.scope = between.scope :=
    (congrArg Draft.scope heq :)
  rw [Draft.place, ← hscope, Prod.mk.injEq] at h
  exact runs_bind.2 ⟨_, _, runs_newWires_self builtin.outputs between,
    runs_bind.2 ⟨⟨⟩, _, runs_modify.2 rfl, runs_pure.2 ⟨h.1.symm, h.2.symm⟩⟩⟩

/-- An assignment of the values of the next node, if there is a name for each of them. -/
theorem runs_expandAll_assigned {names : List String} {value : Node} {yield : Yield}
    {values outputs : List WireId}
    (hvalue : value.isValue = true) (hrun : Runs (step limit fuel value []) d yield between)
    (hlength : yield.values.length = names.length) (hsome : 0 < names.length)
    (hrest : Runs (expandAll (step limit (fuel + 1)) [] 0 rest)
      (between.assignAll (names.zip yield.values)) outputs d') :
    Runs (expandAll (step limit (fuel + 1)) values 0 (.assignment pos names :: value :: rest)) d
      outputs d' := by
  have hall : Runs (assignedValues (step limit fuel) pos names [] 1 (value :: rest)) d
      ⟨2, yield.values⟩ between := by
    have hnone : ([] : List WireId).length < names.length := hsome
    rw [assignedValues, dif_pos hnone, if_pos hvalue]
    refine runs_bind.2 ⟨_, _, hrun, ?_⟩
    have hempty : yield.values.isEmpty = false := by
      rw [List.isEmpty_eq_false_iff, ← List.length_pos_iff, hlength]
      exact hsome
    rw [hempty, if_neg Bool.false_ne_true, List.nil_append]
    have henough : ¬yield.values.length < names.length := by omega
    cases rest with
    | nil =>
      rw [assignedValues, if_neg henough]
      exact runs_pure.2 ⟨rfl, rfl⟩
    | cons next rest =>
      rw [assignedValues, dif_neg henough]
      exact runs_pure.2 ⟨rfl, rfl⟩
  refine runs_bind.2 ⟨⟨2, []⟩, _, ?_, hrest⟩
  exact runs_bind.2 ⟨_, _, hall, runs_bind.2 ⟨⟨⟩, _, runs_modify.2 rfl, runs_pure.2 ⟨rfl, rfl⟩⟩⟩

end Expansion

/-! ## Gates on new wires -/

/-- A gate has been added to a draft, and its outputs are new wires. -/
structure Draft.Placed (kind : GateKind) (label : String) (inputs outputs : List WireId)
    (d d' : Draft) : Prop where
  place : d.place kind label inputs outputs.length d.scope.id = (outputs, d')
  numbered : d'.Numbered
  size : d'.wires.size = d.wires.size + outputs.length
  ids : d'.wires.ids = outputs.reverse ++ d.wires.ids
  gates : ∃ id, d'.gates = ⟨id, kind, label, inputs, outputs, d.scope.id, ""⟩ :: d.gates

namespace Draft.Numbered

variable {d : Draft}

theorem size_newWires {count : Nat} (h : d.Numbered)
    (hsmall : d.wires.size + count < UInt32.size) :
    (d.newWires count).2.wires.size = d.wires.size + count := by
  induction count generalizing d with
  | zero => rfl
  | succ count ih =>
    have hsize : (d.newWire none).2.wires.size = d.wires.size + 1 := by
      rw [← Arena.length_ids, h.ids_newWire, List.length_cons, Arena.length_ids]
    have hnumbered : (d.newWire none).2.Numbered := h.newWire (by omega)
    have hmore := ih hnumbered (by omega)
    rw [hsize, Nat.add_right_comm] at hmore
    exact hmore

/-- A gate on new wires, as long as there are numbers for these. -/
theorem exists_placed (h : d.Numbered) (kind : GateKind) (label : String) (inputs : List WireId)
    (count : Nat) (hsmall : d.wires.size + count < UInt32.size) :
    ∃ outputs d', outputs.length = count ∧ Placed kind label inputs outputs d d' := by
  generalize houtputs : (d.place kind label inputs count d.scope.id).1 = outputs
  generalize hlast : (d.place kind label inputs count d.scope.id).2 = d'
  have hlength : outputs.length = count := houtputs ▸ d.length_newWires count
  have hids : d'.wires.ids = (d.newWires count).2.wires.ids := hlast ▸ Arena.ids_connect _ _
  have hsize : d'.wires.size = d.wires.size + count := by
    rw [← Arena.length_ids, hids, Arena.length_ids, h.size_newWires hsmall]
  have hfits : (d.place kind label inputs count d.scope.id).2.wires.size < UInt32.size := by
    rw [hlast, hsize]
    exact hsmall
  obtain ⟨hnumbered, hgrown, -⟩ := h.place hfits
  obtain ⟨hgates, -⟩ := d.gates_place kind label inputs count d.scope.id
  rw [houtputs, hlast] at hgrown
  rw [houtputs, hlast] at hgates
  refine ⟨outputs, d', hlength, ?_, hlast ▸ hnumbered, ?_, hgrown, _, hgates⟩
  · rw [hlength, ← houtputs, ← hlast]
  · rw [hsize, hlength]

end Draft.Numbered

/-! ## The description of a counter -/

namespace Counter

/-- The name of the wire of the switch, and the names of the bits. -/
def wireName : Nat → String
  | 0 => "t"
  | i + 1 => s!"q{i + 1}"

theorem wireName_succ (i : Nat) : wireName (i + 1) = "q" ++ (i + 1).repr := rfl

theorem wireName_injective : Function.Injective wireName := by
  have hne : ∀ i, wireName (i + 1) ≠ "t" := by
    intro i h
    have hlist := congrArg String.toList h
    rw [wireName_succ, String.toList_append] at hlist
    cases hlist
  intro i j h
  cases i with
  | zero =>
    cases j with
    | zero => rfl
    | succ j => exact absurd h.symm (hne j)
  | succ i =>
    cases j with
    | zero => exact absurd h (hne i)
    | succ j =>
      rw [wireName_succ, wireName_succ, String.append_right_inj] at h
      rw [Nat.repr_inj.1 h]

theorem wireName_ne_discarded (i : Nat) : wireName i ≠ Draft.discarded := by
  cases i with
  | zero => decide
  | succ i =>
    intro h
    have hlist := congrArg String.toList h
    rw [wireName_succ, String.toList_append] at hlist
    cases hlist

/-- The switch. -/
def switchNodes : List Node :=
  [.assignment .start [wireName 0], .invocation .start Builtin.toggle.name []]

/-- A bit, which the wire before it clocks. -/
def stageNodes (i : Nat) : List Node :=
  [.assignment .start [wireName (i + 1), Draft.discarded],
    .invocation .start Builtin.tFlipFlop.name
      [.identifier .start (wireName i), .literal .start true]]

/-- The trees of a counter: a switch, the bits, and the group of the bits. -/
def forest (n : Nat) : List Node :=
  switchNodes ++ (List.range' 0 n).flatMap stageNodes ++
    [.group .start ((List.range' 1 n).map fun i => .identifier .start (wireName i))]

end Counter

/-! ## Drafts of counters -/

namespace Counter

open Expansion

/-- A draft of a description in which the first names are bound to some wires. -/
structure Bound (wires : List WireId) (d : Draft) : Prop where
  outer : d.outer = []
  bound : ∀ i, d.scope.bindings.find? (wireName i) = wires[i]?

variable {wires : List WireId} {d : Draft}

theorem Bound.lookup? (h : Bound wires d) (i : Nat) : d.lookup? (wireName i) = wires[i]? := by
  rw [Draft.lookup?, Scope.lookup?, Draft.scopes, h.outer, List.findSome?_cons, h.bound]
  cases wires[i]? <;> rfl

theorem Bound.placed {kind : GateKind} {label : String} {inputs outputs : List WireId} {d' : Draft}
    (h : Bound wires d) (hplaced : Draft.Placed kind label inputs outputs d d') :
    Bound wires d' := by
  obtain ⟨_, _, _, _, heq⟩ := d.place_eq kind label inputs outputs.length d.scope.id
  have hlast : d' = _ := (congrArg Prod.snd hplaced.place).symm.trans heq
  rw [hlast]
  exact ⟨h.outer, h.bound⟩

/-- The next name is bound to a wire. -/
theorem Bound.assign (h : Bound wires d) (wire : WireId) :
    d.assign (wireName wires.length) wire = d.bind (wireName wires.length) wire ∧
      Bound (wires ++ [wire]) (d.bind (wireName wires.length) wire) := by
  have hnone : d.scope.bindings.find? (wireName wires.length) = none := by
    rw [h.bound, List.getElem?_eq_none le_rfl]
  constructor
  · rw [Draft.assign, if_neg (wireName_ne_discarded _), hnone]
  · refine ⟨h.outer, fun i => ?_⟩
    show (d.scope.bindings.insert _ _).find? _ = _
    rw [Bindings.find?_insert, h.bound]
    rcases Nat.lt_trichotomy i wires.length with hlt | rfl | hlt
    · rw [if_neg (mt (@wireName_injective _ _) hlt.ne), List.getElem?_append_left hlt]
    · rw [if_pos rfl, List.getElem?_concat_length]
    · rw [if_neg (mt (@wireName_injective _ _) hlt.ne'), List.getElem?_eq_none hlt.le,
        List.getElem?_eq_none (by simpa using Nat.succ_le_of_lt hlt)]

/-- The two values of a flip-flop, of which the second one is given up. -/
theorem Bound.assignAll (h : Bound wires d) (bit inverse : WireId) :
    d.assignAll ([wireName wires.length, Draft.discarded].zip [bit, inverse]) =
      d.bind (wireName wires.length) bit := by
  rw [List.zip_cons_cons, List.zip_cons_cons, Draft.assignAll, List.foldl_cons, List.foldl_cons]
  dsimp only
  rw [(h.assign bit).1, Draft.assign, if_pos rfl]
  rfl

/-- A draft to which stages have been added, that no simulation has seen. -/
structure Grown (clock : WireId) (stages : List Stage) (d d' : Draft) : Prop where
  numbered : d'.Numbered
  size : d'.wires.size = d.wires.size + 3 * stages.length
  ids : d'.wires.ids = (stages.flatMap Stage.wires).reverse ++ d.wires.ids
  gates : ∃ gates, d'.gates = gates.reverse ++ d.gates ∧
    Chain (fun _ => false) false clock stages gates

theorem Grown.cons {clock : WireId} {stage : Stage} {stages : List Stage} {d d' d'' : Draft}
    (h : Grown clock [stage] d d') (h' : Grown stage.bit stages d' d'') :
    Grown clock (stage :: stages) d d'' where
  numbered := h'.numbered
  size := by
    rw [h'.size, h.size, List.length_singleton, List.length_cons]
    omega
  ids := by
    rw [h'.ids, h.ids, ← List.append_assoc, ← List.reverse_append, ← List.flatMap_append]
    rfl
  gates := by
    obtain ⟨gates, hgates, hchain⟩ := h.gates
    obtain ⟨gates', hgates', hchain'⟩ := h'.gates
    refine ⟨gates ++ gates', ?_, ?_⟩
    · rw [hgates', hgates, List.reverse_append, List.append_assoc]
    · cases hchain with
      | cons made high seen held rest =>
        cases rest
        exact .cons made high seen held hchain'

/-- The trees of the switch add it. -/
theorem exists_switch :
    ∃ wire toggle d, Bound [wire] d ∧ d.Numbered ∧ d.wires.ids = [wire] ∧ d.gates = [toggle] ∧
      toggle.IsToggle false wire ∧
      ∀ (limit : UInt64) (fuel : Nat) (pos pos' : Position) (rest : List Node)
        (outputs : List WireId) (d' : Draft),
        Runs (expandAll (step limit (fuel + 3)) [] 0 rest) d outputs d' →
          Runs (expandAll (step limit (fuel + 3)) [] 0 (.assignment pos [wireName 0] ::
            .invocation pos' Builtin.toggle.name [] :: rest)) .empty outputs d' := by
  have hempty : Bound [] Draft.empty := ⟨rfl, fun _ => rfl⟩
  obtain ⟨_, d, hone, hplaced⟩ :=
    Draft.numbered_empty.exists_placed .builtin Builtin.toggle.name [] 1 (by decide)
  obtain ⟨wire, rfl⟩ := List.length_eq_one_iff.1 hone
  obtain ⟨_, hgates⟩ := hplaced.gates
  obtain ⟨hassign, hbound⟩ := (hempty.placed hplaced).assign wire
  have hassigned : d.assignAll ([wireName 0].zip [wire]) = d.bind (wireName 0) wire := hassign
  refine ⟨wire, _, d.bind (wireName 0) wire, hbound,
    ⟨hplaced.numbered.last, hplaced.numbered.numbers⟩, hplaced.ids, hgates,
    ⟨rfl, rfl, rfl, rfl, rfl⟩, fun limit fuel pos pos' rest outputs d' hrun => ?_⟩
  have hargs : Runs (valuesEach (step limit (fuel + 1)) []) .empty [] .empty :=
    runs_pure.2 ⟨rfl, rfl⟩
  have hvalue : Runs (step limit (fuel + 2) (.invocation pos' Builtin.toggle.name []) []) .empty
      (.single [wire]) d := runs_step_builtin hargs (le_refl 0) hplaced.place
  refine runs_expandAll_assigned rfl hvalue rfl Nat.one_pos ?_
  rw [Yield.single, hassigned]
  exact hrun

/-- The invocation of a flip-flop adds a stage. -/
theorem exists_stage {i : Nat} {clock : WireId} (hd : d.Numbered)
    (hsmall : d.wires.size + 3 < UInt32.size) (h : Bound wires d)
    (hclock : wires[i]? = some clock) :
    ∃ stage d', Bound wires d' ∧ Grown clock [stage] d d' ∧
      ∀ (limit : UInt64) (fuel : Nat) (pos pos' pos'' : Position),
        Runs (step limit (fuel + 2) (.invocation pos Builtin.tFlipFlop.name
            [.identifier pos' (wireName i), .literal pos'' true]) []) d
          (.single [stage.bit, stage.inverse]) d' := by
  obtain ⟨_, d₁, hone, hsource⟩ := hd.exists_placed .source "" [] 1 (by omega)
  obtain ⟨high, rfl⟩ := List.length_eq_one_iff.1 hone
  have hsize : d₁.wires.size = d.wires.size + 1 := hsource.size
  obtain ⟨_, d₂, htwo, hflip⟩ :=
    hsource.numbered.exists_placed .builtin Builtin.tFlipFlop.name [clock, high] 2 (by omega)
  obtain ⟨bit, inverse, rfl⟩ := List.length_eq_two.1 htwo
  obtain ⟨_, hgates⟩ := hsource.gates
  obtain ⟨_, hgates'⟩ := hflip.gates
  refine ⟨⟨high, bit, inverse⟩, d₂, (h.placed hsource).placed hflip,
    ⟨hflip.numbered, ?_, ?_, ?_⟩, fun limit fuel pos pos' pos'' => ?_⟩
  · rw [hflip.size, hsource.size]
    rfl
  · rw [hflip.ids, hsource.ids]
    rfl
  · rw [hgates', hgates]
    exact ⟨[_, _], rfl, .cons ⟨rfl, rfl, rfl, rfl, rfl, rfl, rfl, rfl⟩ rfl rfl rfl (.nil bit)⟩
  · have hfirst : Runs (step limit (fuel + 1) (.identifier pos' (wireName i)) []) d
        (.single [clock]) d := runs_step_identifier ((h.lookup? i).trans hclock)
    have hsecond : Runs (step limit (fuel + 1) (.literal pos'' true) []) d (.single [high]) d₁ :=
      runs_step_one hsource.place
    have hnone : Runs (valuesEach (step limit (fuel + 1)) []) d₁ [] d₁ := runs_pure.2 ⟨rfl, rfl⟩
    have hargs : Runs (valuesEach (step limit (fuel + 1))
        [.identifier pos' (wireName i), .literal pos'' true]) d [[clock], [high]] d₁ :=
      runs_valuesEach_cons.2 ⟨_, d, hfirst, [[high]],
        runs_valuesEach_cons.2 ⟨_, d₁, hsecond, [], hnone, rfl⟩, rfl⟩
    exact runs_step_builtin hargs (le_refl 2) hflip.place

/-- The trees of a bit, wherever they stand. -/
theorem exists_of_stageNodes {i : Nat} {nodes rest : List Node}
    (h : Node.unplacedAll nodes = stageNodes i ++ rest) :
    ∃ pos₁ pos₂ pos₃ pos₄ later,
      nodes = .assignment pos₁ [wireName (i + 1), Draft.discarded] ::
          .invocation pos₂ Builtin.tFlipFlop.name
            [.identifier pos₃ (wireName i), .literal pos₄ true] :: later ∧
        Node.unplacedAll later = rest := by
  obtain ⟨_, _, rfl, hassignment, hnext⟩ := Node.exists_cons_of_unplaced h
  obtain ⟨pos₁, rfl⟩ := Node.exists_assignment_of_unplaced hassignment
  obtain ⟨_, later, rfl, hinvocation, hlater⟩ := Node.exists_cons_of_unplaced hnext
  obtain ⟨pos₂, _, rfl, hargs⟩ := Node.exists_invocation_of_unplaced hinvocation
  obtain ⟨_, _, rfl, hidentifier, hargs'⟩ := Node.exists_cons_of_unplaced hargs
  obtain ⟨pos₃, rfl⟩ := Node.exists_identifier_of_unplaced hidentifier
  obtain ⟨_, _, rfl, hliteral, hnone⟩ := Node.exists_cons_of_unplaced hargs'
  obtain ⟨pos₄, rfl⟩ := Node.exists_literal_of_unplaced hliteral
  cases Node.eq_nil_of_unplaced hnone
  exact ⟨pos₁, pos₂, pos₃, pos₄, later, rfl, hlater⟩

/-- The trees of some bits add as many stages. -/
theorem exists_stages {i count : Nat} {clock : WireId} {nodes rest : List Node}
    (hnodes : Node.unplacedAll nodes = (List.range' i count).flatMap stageNodes ++ rest)
    (hd : d.Numbered) (hsmall : d.wires.size + 3 * count < UInt32.size) (h : Bound wires d)
    (hlength : wires.length = i + 1) (hclock : wires[i]? = some clock) :
    ∃ stages d' later, stages.length = count ∧ Node.unplacedAll later = rest ∧
      later <:+ nodes ∧ Bound (wires ++ stages.map Stage.bit) d' ∧ Grown clock stages d d' ∧
      ∀ (limit : UInt64) (fuel : Nat) (outputs : List WireId) (d'' : Draft),
        Runs (expandAll (step limit (fuel + 3)) [] 0 later) d' outputs d'' →
          Runs (expandAll (step limit (fuel + 3)) [] 0 nodes) d outputs d'' := by
  induction count generalizing i clock nodes d wires with
  | zero =>
    refine ⟨[], d, nodes, rfl, hnodes, List.suffix_rfl, ?_, ⟨hd, rfl, rfl, [], rfl, .nil clock⟩,
      fun _ _ _ _ hrun => hrun⟩
    rwa [List.map_nil, List.append_nil]
  | succ count ih =>
    rw [List.range'_succ, List.flatMap_cons, List.append_assoc] at hnodes
    obtain ⟨pos₁, pos₂, pos₃, pos₄, later, rfl, hlater⟩ := exists_of_stageNodes hnodes
    obtain ⟨stage, d₁, hbound, hgrown, hrun⟩ := exists_stage hd (by omega) h hclock
    have hassigned := hbound.assignAll stage.bit stage.inverse
    have hbound' := (hbound.assign stage.bit).2
    rw [hlength] at hassigned hbound'
    have hbit : (wires ++ [stage.bit])[i + 1]? = some stage.bit := by
      rw [← hlength, List.getElem?_concat_length]
    have hsize : d₁.wires.size = d.wires.size + 3 := hgrown.size
    have hsmall' : (d₁.bind (wireName (i + 1)) stage.bit).wires.size + 3 * count <
        UInt32.size := by
      show d₁.wires.size + 3 * count < UInt32.size
      omega
    obtain ⟨stages, d', later', hcount, hlater', hsuffix, hbound'', hgrown', hrest⟩ := ih hlater
      (d := d₁.bind (wireName (i + 1)) stage.bit) ⟨hgrown.numbered.last, hgrown.numbered.numbers⟩
      hsmall' hbound' (by simp [hlength]) hbit
    refine ⟨stage :: stages, d', later', congrArg (· + 1) hcount, hlater',
      hsuffix.trans ⟨[_, _], rfl⟩, ?_, ?_, ?_⟩
    · rwa [List.append_assoc] at hbound''
    · exact hgrown.cons ⟨hgrown'.numbered, hgrown'.size, hgrown'.ids, hgrown'.gates⟩
    · intro limit fuel outputs d'' hrun'
      refine runs_expandAll_assigned rfl (hrun limit fuel pos₂ pos₃ pos₄) rfl Nat.two_pos ?_
      rw [Yield.single, hassigned]
      exact hrest limit fuel outputs d'' hrun'

/-- Names that are bound have the values to which they are bound. -/
theorem runs_members {start : Nat} {members : List Node} {outputs : List WireId}
    (hmembers : Node.unplacedAll members =
      (List.range' start outputs.length).map fun i => .identifier .start (wireName i))
    (hbound : ∀ i wire, outputs[i]? = some wire → d.lookup? (wireName (start + i)) = some wire)
    (limit : UInt64) (fuel : Nat) :
    Runs (valuesEach (step limit (fuel + 1)) members) d (outputs.map fun wire => [wire]) d := by
  induction outputs generalizing start members with
  | nil =>
    cases Node.eq_nil_of_unplaced hmembers
    exact runs_pure.2 ⟨rfl, rfl⟩
  | cons wire outputs ih =>
    rw [List.length_cons, List.range'_succ, List.map_cons] at hmembers
    obtain ⟨_, rest, rfl, hfirst, hrest⟩ := Node.exists_cons_of_unplaced hmembers
    obtain ⟨pos, rfl⟩ := Node.exists_identifier_of_unplaced hfirst
    refine runs_valuesEach_cons.2 ⟨.single [wire], d,
      runs_step_identifier (hbound 0 wire rfl), _, ih hrest fun i other hother => ?_, rfl⟩
    rw [Nat.add_assoc, Nat.add_comm 1]
    exact hbound (i + 1) other hother

/-- The group of the bits has their wires as its values. -/
theorem runs_group {wire : WireId} {stages : List Stage} {members : List Node} {pos : Position}
    (h : Bound (wire :: stages.map Stage.bit) d)
    (hmembers : Node.unplacedAll members =
      (List.range' 1 stages.length).map fun i => .identifier .start (wireName i))
    (limit : UInt64) (fuel : Nat) :
    Runs (expandAll (step limit (fuel + 2)) [] 0 [.group pos members]) d (stages.map Stage.bit)
      d := by
  have hlookup : ∀ i bit, (stages.map Stage.bit)[i]? = some bit →
      d.lookup? (wireName (1 + i)) = some bit := by
    intro i bit hbit
    rw [h.lookup?, Nat.add_comm]
    exact hbit
  rw [← List.length_map Stage.bit] at hmembers
  have hvalues := runs_members hmembers hlookup limit fuel
  refine runs_bind.2 ⟨_, d, runs_bind.2 ⟨_, d, hvalues, runs_pure.2 ⟨rfl, rfl⟩⟩,
    runs_pure.2 ⟨?_, rfl⟩⟩
  exact (List.flatMap_singleton' _).symm

/-- The bound on the descent lets the members of the group be expanded. -/
theorem three_le_nestingBound (limit : UInt64) {pos : Position} {members nodes : List Node}
    (h : .group pos members ∈ nodes) : 3 ≤ nestingBound limit nodes := by
  have hheight : 1 ≤ Node.heightAll nodes := by
    calc 1 ≤ (Node.group pos members).height := Nat.le_add_left 1 _
      _ ≤ Node.heightAll nodes := Node.height_le_heightAll h
  have hscope : 1 ≤ scopeBound limit := by
    rw [scopeBound]
    split
    · decide
    · next hlimit => exact Nat.pos_of_ne_zero fun hzero => hlimit (UInt64.toNat_inj.1 hzero)
  calc 3 ≤ 1 * (Node.heightAll nodes + 2) := by omega
    _ ≤ nestingBound limit nodes := Nat.mul_le_mul_right _ hscope

/-- The expansion of the description of a counter adds the switch and then the stages. -/
theorem exists_draft {n : Nat} (hsmall : 3 * n + 1 < UInt32.size)
    (limit : UInt64) {nodes : List Node} (hnodes : Node.unplacedAll nodes = forest n) :
    ∃ d wire stages,
      Draft.ofForest limit nodes = .ok (stages.map Stage.bit, d) ∧ stages.length = n ∧
        d.wires.ids.reverse = wire :: stages.flatMap Stage.wires ∧
        ∃ toggle gates, d.gates.reverse = toggle :: gates ∧ toggle.IsToggle false wire ∧
          Chain (fun _ => false) false wire stages gates := by
  rw [forest, List.append_assoc] at hnodes
  obtain ⟨_, _, rfl, hassignment, hnext⟩ := Node.exists_cons_of_unplaced hnodes
  obtain ⟨pos₁, rfl⟩ := Node.exists_assignment_of_unplaced hassignment
  obtain ⟨_, rest, rfl, hinvocation, hrest⟩ := Node.exists_cons_of_unplaced hnext
  obtain ⟨pos₂, _, rfl, hargs⟩ := Node.exists_invocation_of_unplaced hinvocation
  cases Node.eq_nil_of_unplaced hargs
  obtain ⟨wire, toggle, d₁, hbound, hnumbered, hids, hgates, htoggle, hswitch⟩ := exists_switch
  have hsize : d₁.wires.size = 1 := by rw [← Arena.length_ids, hids, List.length_singleton]
  obtain ⟨stages, d₂, later, rfl, hlater, hsuffix, hbound', hgrown, hstages⟩ :=
    exists_stages hrest hnumbered (by omega) hbound rfl rfl
  obtain ⟨_, _, rfl, hgroup, hnone⟩ := Node.exists_cons_of_unplaced hlater
  obtain ⟨pos₃, members, rfl, hmembers⟩ := Node.exists_group_of_unplaced hgroup
  cases Node.eq_nil_of_unplaced hnone
  obtain ⟨fuel, hfuel⟩ := Nat.exists_eq_add_of_le' (three_le_nestingBound limit
    (List.mem_cons_of_mem _ (List.mem_cons_of_mem _ (hsuffix.mem List.mem_cons_self))))
  obtain ⟨gates, hgates', hchain⟩ := hgrown.gates
  refine ⟨d₂, wire, stages, ?_, rfl, ?_, toggle, gates, ?_, htoggle, hchain⟩
  · rw [Draft.ofForest, hfuel]
    exact hswitch _ _ _ _ _ _ _ (hstages _ _ _ _ (runs_group hbound' hmembers limit (fuel + 1)))
  · rw [hgrown.ids, hids, List.reverse_append, List.reverse_reverse]
    rfl
  · rw [hgates', hgates, List.reverse_append, List.reverse_reverse]
    rfl

/-- The description of a counter has a netlist, which is a switch and a chain of stages
behind it. -/
theorem exists_ofForest {n : Nat} (_ : 0 < n) (hsmall : 3 * n + 1 < UInt32.size)
    (limit : UInt64) {nodes : List Node} (hnodes : Node.unplacedAll nodes = forest n) :
    ∃ compiled wire stages, Netlist.ofForest limit nodes = .ok compiled ∧
      stages.length = n ∧ compiled.outputs = stages.map Stage.bit ∧
      Counts false false wire stages compiled.circuit ∧
      ∀ id, compiled.wires.isPowered id = false := by
  obtain ⟨d, wire, stages, hdraft, hlength, hids, toggle, gates, hgates, htoggle, hchain⟩ :=
    exists_draft hsmall limit hnodes
  have hcompiled : Netlist.ofForest limit nodes =
      .ok { d.netlist with outputs := stages.map Stage.bit }.linkContexts := by
    rw [Netlist.ofForest, hdraft]
    rfl
  have hunlit := (Draft.leads_ofForest (Node.allIn_true nodes) hdraft).reaches.unlit
  refine ⟨_, wire, stages, hcompiled, hlength, rfl, ⟨?_, fun id hid => ?_, toggle, gates, hgates,
    htoggle, ?_⟩, hunlit.isPowered⟩
  · rw [← hids, List.nodup_reverse]
    exact d.wires.nodup
  · rw [← hids] at hid
    exact List.mem_reverse.1 hid
  · rwa [← (funext hunlit.isPowered : d.wires.isPowered = fun _ => false)] at hchain

end Counter

end Gatework
