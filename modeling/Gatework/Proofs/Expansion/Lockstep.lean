import Gatework.Proofs.Expansion.Meaning
import Gatework.Proofs.Expansion.Trace

/-!
# Expansion and evaluation in step

An expansion and an evaluation of the same description go through it in step: the
values of the evaluation are the signals of the wires of the expansion, and what
the evaluation knows is what the draft says.

There are four groups.

* `Evaluates`, and how evaluations are put together.
* The pieces of the expansion.  An evaluator that keeps in step with a step
  (`Lockstep`) makes pieces that keep in step.
* Invocations.  The gates that pass inputs and outputs show what they pass.
* `lockstep_step` ties the recursion, for any evaluator that descends at least as
  deep, and `evaluate_eq` is the result for a whole description.
-/

namespace Gatework

/-! ## Evaluations -/

namespace Evaluation

variable {α β : Type} {w w' w'' : World}

/-- A computation of truth values gives a value, and leaves a world. -/
def Evaluates (x : Evaluation α) (w : World) (a : α) (w' : World) : Prop :=
  x.run w = some (a, w')

theorem evaluates_pure (a : α) : Evaluates (pure a) w a w := rfl

theorem evaluates_modify (f : World → World) : Evaluates (modify f) w ⟨⟩ (f w) := rfl

theorem Evaluates.bind {x : Evaluation α} {f : α → Evaluation β} {a : α} {b : β}
    (h : Evaluates x w a w') (h' : Evaluates (f a) w' b w'') : Evaluates (x >>= f) w b w'' := by
  unfold Evaluates at h h' ⊢
  rw [StateT.run_bind, h]
  exact h'

/-- The value of a computation may be worked on. -/
theorem Evaluates.map {x : Evaluation α} {f : α → β} {a : α} (h : Evaluates x w a w') :
    Evaluates (do return f (← x)) w (f a) w' := h.bind (evaluates_pure (f a))

end Evaluation

namespace Expansion

open Draft Evaluation

variable {limit : UInt64} {z d d' : Draft} {a : Arena} {step : Step} {ev : Evaluator}
  {pos : Position}

/-! ## Pieces of the expansion -/

/-- A step with an evaluator that keeps in step with it, on combinational nodes and
on the way to a final draft. -/
structure Lockstep (limit : UInt64) (z : Draft) (a : Arena) (step : Step) (ev : Evaluator) :
    Prop where
  traced : Traced Node.isCombinational limit step
  follows : ∀ ⦃node : Node⦄ ⦃rest : List Node⦄ ⦃d : Draft⦄ ⦃yield : Yield⦄ ⦃d' : Draft⦄,
    node.all Node.isCombinational = true → Node.allIn Node.isCombinational rest = true →
      d.OnWay limit z → d'.OnWay limit z → Runs (step node rest) d yield d' →
        Evaluates (ev node rest) (d.world a z) ⟨yield.taken, yield.values.map a.isPowered⟩
          (d'.world a z)

theorem evaluates_operand (hstep : Lockstep limit z a step ev) {kind : TokenKind} {side : Side}
    {rhs : Option Node} {wire : WireId} (hrhs : Node.allOption Node.isCombinational rhs = true)
    (hd : d.OnWay limit z) (hd' : d'.OnWay limit z)
    (h : Runs (operand step kind side pos rhs) d wire d') :
    Evaluates (Evaluation.operand ev rhs) (d.world a z) (a.isPowered wire) (d'.world a z) := by
  obtain ⟨node, taken, rfl, hnode⟩ := runs_operand h
  have hfirst := hstep.follows hrhs rfl hd hd' hnode
  exact hfirst.bind (evaluates_pure _)

theorem evaluates_each (hstep : Lockstep limit z a step ev) {nodes : List Node}
    {values : List (List WireId)} (hnodes : Node.allIn Node.isCombinational nodes = true)
    (hd : d.OnWay limit z) (hd' : d'.OnWay limit z)
    (h : Runs (valuesEach step nodes) d values d') :
    Evaluates (each ev nodes) (d.world a z) (values.flatten.map a.isPowered) (d'.world a z) := by
  induction nodes generalizing d values with
  | nil =>
    obtain ⟨rfl, rfl⟩ := runs_pure.1 h
    exact evaluates_pure []
  | cons node rest ih =>
    rw [Node.allIn_cons] at hnodes
    obtain ⟨yield, mid, hnode, more, hmore, rfl⟩ := runs_valuesEach_cons.1 h
    have hfirst := hstep.traced hnodes.1 rfl hd.sound hnode
    have hrest := leads_valuesEach hstep.traced hnodes.2 (hfirst.reaches.sound hd.sound) hmore
    have hmid := hd.between hd' hfirst.reaches hrest.reaches
    rw [List.flatten_cons, List.map_append]
    exact (hstep.follows hnodes.1 rfl hd hmid hnode).bind (ih hnodes.2 hmid hmore).map

theorem gather_zero (ev : Evaluator) (nodes : List Node) :
    gather ev 0 nodes = pure ⟨0, []⟩ := by
  cases nodes <;> rfl

/-- An assignment takes as many siblings as an evaluation does. -/
theorem evaluates_gather (hstep : Lockstep limit z a step ev) {names : List String}
    {values : List WireId} {taken : Nat} {nodes : List Node} {yield : Yield}
    (hnodes : Node.allIn Node.isCombinational nodes = true) (hd : d.OnWay limit z)
    (hd' : d'.OnWay limit z) (hvalues : ∀ wire ∈ values, wire ∈ d.wires.ids)
    (h : Runs (assignedValues step pos names values taken nodes) d yield d') :
    ∃ count more, yield = ⟨taken + count, values ++ more⟩ ∧
      Evaluates (gather ev (names.length - values.length) nodes) (d.world a z)
        ⟨count, more.map a.isPowered⟩ (d'.world a z) := by
  induction nodes generalizing d values taken with
  | nil =>
    rcases runs_assignedValues h with ⟨hlen, rfl, rfl⟩ | ⟨_, _, _, _, heq, -⟩
    · refine ⟨0, [], by simp, ?_⟩
      rw [show names.length - values.length = 0 by omega]
      exact evaluates_pure _
    · exact absurd heq nofun
  | cons node rest ih =>
    rcases runs_assignedValues h with
      ⟨hlen, rfl, rfl⟩ | ⟨_, _, first, mid, heq, hlen, -, hnode, -, h⟩
    · refine ⟨0, [], by simp, ?_⟩
      rw [show names.length - values.length = 0 by omega, gather_zero]
      exact evaluates_pure _
    · cases heq
      rw [Node.allIn_cons] at hnodes
      have hfirst := hstep.traced hnodes.1 rfl hd.sound hnode
      have hboth := (Leads.refl hvalues).append hfirst
      have hrest := leads_assignedValues hstep.traced hnodes.2 (hfirst.reaches.sound hd.sound)
        hboth.mem h
      have hmid := hd.between hd' hfirst.reaches hrest.reaches
      obtain ⟨count, more, rfl, hmore⟩ := ih hnodes.2 hmid hboth.mem h
      obtain ⟨wanted, hwanted⟩ : ∃ wanted, names.length - values.length = wanted + 1 :=
        ⟨names.length - values.length - 1, by omega⟩
      have hleft : names.length - (values ++ first.values).length =
          wanted + 1 - (first.values.map a.isPowered).length := by
        rw [List.length_append, List.length_map]
        omega
      rw [hleft] at hmore
      refine ⟨count + 1, first.values ++ more, ?_, ?_⟩
      · rw [List.append_assoc, Nat.add_assoc, Nat.add_comm 1 count]
      · rw [hwanted, List.map_append]
        exact (hstep.follows hnodes.1 rfl hd hmid hnode).bind hmore.map

theorem world_assignAll {pairs : List (String × WireId)}
    (hpairs : ∀ pair ∈ pairs, pair.2 ∈ d.wires.ids) (hnone : (d.assignAll pairs).rebindings = []) :
    (d.assignAll pairs).world a z =
      (d.world a z).assignAll (pairs.map fun pair => (pair.1, a.isPowered pair.2)) := by
  induction pairs generalizing d with
  | nil => rfl
  | cons pair pairs ih =>
    have hrest : ∀ other ∈ pairs, other.2 ∈ (d.assign pair.1 pair.2).wires.ids := by
      intro other hother
      obtain ⟨_, _, _, _, heq⟩ := d.assign_eq pair.1 pair.2
      rw [heq]
      exact hpairs other (List.mem_cons_of_mem _ hother)
    have hreaches : Reaches Node.isCombinational 0 (d.assign pair.1 pair.2)
        (d.assignAll (pair :: pairs)) := reaches_assignAll hrest
    have hfirst := assign_eq_of_rebindings (hreaches.rebindings_eq_nil hnone)
    have hworld : (d.assign pair.1 pair.2).world a z =
        (d.world a z).assign pair.1 (a.isPowered pair.2) := by
      rw [hfirst, World.assign]
      show _ = if pair.1 = discarded then _ else _
      split
      · rfl
      · exact world_bind pair.1 pair.2
    have hmore := ih hrest hnone
    rw [hworld] at hmore
    exact hmore

theorem evaluates_assignment (hz : z.Solution a) (hstep : Lockstep limit z a step ev)
    {names : List String} {rest : List Node} {yield : Yield}
    (hrest : Node.allIn Node.isCombinational rest = true) (hd : d.OnWay limit z)
    (hd' : d'.OnWay limit z) (h : Runs (assignment step pos names rest) d yield d') :
    Evaluates (evaluateNode ev (.assignment pos names) rest) (d.world a z)
      ⟨yield.taken, yield.values.map a.isPowered⟩ (d'.world a z) := by
  obtain ⟨taken, values, mid, hvalues, rfl, rfl⟩ := runs_assignment h
  have hnil : ∀ wire ∈ ([] : List WireId), wire ∈ d.wires.ids := List.forall_mem_nil _
  have hleads := leads_assignedValues hstep.traced hrest hd.sound hnil hvalues
  have hpairs : ∀ pair ∈ names.zip values, pair.2 ∈ mid.wires.ids :=
    fun pair hpair => hleads.mem _ (List.of_mem_zip hpair).2
  have hmid := hd.between hd' hleads.reaches (reaches_assignAll hpairs)
  obtain ⟨count, more, heq, hgather⟩ := evaluates_gather hstep hrest hd hmid hnil hvalues
  rw [List.nil_append] at heq
  obtain ⟨rfl, rfl⟩ := Yield.mk.inj heq
  have hworld := world_assignAll (z := z) (a := a) hpairs (hd'.rebindings_eq_nil hz)
  have hzip : (names.zip values).map (fun pair => (pair.1, a.isPowered pair.2)) =
      names.zip (values.map a.isPowered) := List.zip_map_right.symm
  rw [hzip] at hworld
  rw [hworld, Nat.add_comm 1 count]
  exact hgather.bind ((evaluates_modify _).bind (evaluates_pure _))

/-- A name that is not bound takes the next input, which is the signal of the wire
that is declared for it. -/
theorem evaluates_valueOf (hz : z.Solution a) {name : String} {wire : WireId}
    (hd : d.OnWay limit z) (hd' : d'.OnWay limit z) (h : Runs (wireOf name) d wire d') :
    Evaluates (valueOf name) (d.world a z) (a.isPowered wire) (d'.world a z) := by
  rcases runs_wireOf h with ⟨hbound, rfl⟩ | ⟨hnone, hdeclared⟩
  · have hvalue : (d'.world a z).value? name = some (a.isPowered wire) := by
      rw [value?_world, hbound]
      rfl
    unfold valueOf Evaluates
    simp only [StateT.run_bind, StateT.run_get, pure_bind, hvalue]
    rfl
  · have hvalue : (d.world a z).value? name = none := by
      rw [value?_world, hnone]
      rfl
    have hgrown : (d.declare name).2.wires.declared = d.wires.declared ++ [(d.declare name).1] :=
      (hd.numbered hz).declared_newWire _
    have hscope : (d.declare name).2.scope = d.scope.bind name (d.declare name).1 := rfl
    have houter : (d.declare name).2.outer = d.outer := rfl
    rw [hdeclared] at hgrown hscope houter
    obtain ⟨later, hlater⟩ := (hd'.grows hz).2
    have hinputs : (d.world a z).inputs = a.isPowered wire :: later.map a.isPowered := by
      show (z.wires.declared.drop d.wires.declared.length).map a.isPowered = _
      rw [← hlater, hgrown, List.append_assoc, List.drop_left]
      rfl
    have hworld : d'.world a z = ⟨(d.world a z).frame.bind name (a.isPowered wire),
        (d.world a z).outer, later.map a.isPowered⟩ := by
      have hframe : (d.scope.bind name wire).frame a = _ := Bindings.frame_insert a _ name _ _
      rw [world, hscope, hframe, houter, ← hlater, List.drop_left]
      rfl
    unfold valueOf Evaluates
    simp only [StateT.run_bind, StateT.run_get, pure_bind, hvalue, hinputs, hworld]
    rfl

/-! ## Invocations -/

/-- The parameters of a block are bound to wires that show the arguments. -/
theorem frame_passInputs (hz : z.Solution a) {block : Block} {count : Nat} {frame : ContextId}
    {bindings bindings' : Bindings} {passed : List ((Nat × WireId) × String)}
    (hd : d.OnWay limit z) (hd' : d'.OnWay limit z)
    (hpassed : ∀ argument ∈ passed, argument.1.2 ∈ d.wires.ids)
    (hbindings : ∀ binding ∈ bindings, binding.2 ∈ d.wires.ids)
    (hframe : d.Knows frame)
    (h : Runs (passInputs block count frame bindings passed) d bindings' d') :
    d'.world a z = d.world a z ∧ bindings'.frame a [] = (bindings.frame a []).bindAll
      (passed.map fun argument => (argument.2, a.isPowered argument.1.2)) := by
  induction passed generalizing d bindings with
  | nil =>
    obtain ⟨rfl, rfl⟩ := runs_pure.1 h
    exact ⟨rfl, rfl⟩
  | cons first rest ih =>
    obtain ⟨⟨place, wire⟩, param⟩ := first
    obtain ⟨label, bound, mid, hplace, h⟩ := runs_passInputs_cons h
    have hwire : ∀ input ∈ [wire], input ∈ d.wires.ids :=
      List.forall_mem_singleton.2 (hpassed _ List.mem_cons_self)
    have hgate : Leads Node.isCombinational limit d [bound] mid :=
      leads_place hplace hwire ⟨rfl, rfl⟩ (Or.inr hframe)
    have hrest : ∀ argument ∈ rest, argument.1.2 ∈ mid.wires.ids := fun argument hargument =>
      hgate.reaches.mem_ids _ (hpassed argument (List.mem_cons_of_mem _ hargument))
    have hinserted : ∀ binding ∈ bindings.insert param bound, binding.2 ∈ mid.wires.ids :=
      hgate.mem_ids_insert hbindings
    have hknown := hgate.reaches.knows hframe
    have hmore : Leads Node.isCombinational limit mid (bindings'.map Prod.snd) d' :=
      leads_passInputs hrest hinserted hknown h
    have hmid := hd.between hd' hgate.reaches hmore.reaches
    obtain ⟨hsignal, hworld⟩ := hd.place hz hmid hplace ⟨rfl, rfl⟩ (by decide)
    obtain ⟨hworld', hbound⟩ := ih hmid hrest hinserted hknown h
    refine ⟨hworld'.trans hworld, ?_⟩
    rw [hbound, Bindings.frame_insert, hsignal]
    rfl

/-- The wires that a block passes out show the values of its returns. -/
theorem map_passOutputs (hz : z.Solution a) {block : Block} {count : Nat} {frame : ContextId}
    {place : Nat} {wires outputs : List WireId} (hd : d.OnWay limit z) (hd' : d'.OnWay limit z)
    (hwires : ∀ wire ∈ wires, wire ∈ d.wires.ids)
    (hframe : d.Knows frame)
    (h : Runs (passOutputs block count frame place wires) d outputs d') :
    d'.world a z = d.world a z ∧ outputs.map a.isPowered = wires.map a.isPowered := by
  induction wires generalizing d place outputs with
  | nil =>
    obtain ⟨rfl, rfl⟩ := runs_pure.1 h
    exact ⟨rfl, rfl⟩
  | cons wire rest ih =>
    obtain ⟨label, output, mid, hplace, more, hmore, rfl⟩ := runs_passOutputs_cons h
    have hwire : ∀ input ∈ [wire], input ∈ d.wires.ids :=
      List.forall_mem_singleton.2 (hwires wire List.mem_cons_self)
    have hgate : Leads Node.isCombinational limit d [output] mid :=
      leads_place hplace hwire ⟨rfl, rfl⟩ (Or.inr hframe)
    have hrest : ∀ other ∈ rest, other ∈ mid.wires.ids := fun other hother =>
      hgate.reaches.mem_ids _ (hwires other (List.mem_cons_of_mem _ hother))
    have hknown := hgate.reaches.knows hframe
    have hleads : Leads Node.isCombinational limit mid more d' :=
      leads_passOutputs hrest hknown hmore
    have hmid := hd.between hd' hgate.reaches hleads.reaches
    obtain ⟨hsignal, hworld⟩ := hd.place hz hmid hplace ⟨rfl, rfl⟩ (by decide)
    obtain ⟨hworld', hmap⟩ := ih hmid hrest hknown hmore
    refine ⟨hworld'.trans hworld, ?_⟩
    rw [List.map_cons, List.map_cons, hmap, hsignal]
    simp [GateKind.signal]

theorem evaluates_body (hz : z.Solution a) (hstep : Lockstep limit z a step ev) {block : Block}
    {count : Nat} {frame : ContextId} {skipped : Nat} {nodes : List Node}
    {outputs : List WireId} (hnodes : Node.allIn Node.isCombinational nodes = true)
    (hd : d.OnWay limit z) (hd' : d'.OnWay limit z)
    (hframe : d.Knows frame)
    (h : Runs (expandBody step block count frame skipped nodes) d outputs d') :
    ∃ parts, Evaluates (sequence ev skipped nodes) (d.world a z) parts (d'.world a z) ∧
      (parts.filter fun part => part.1.isReturn).flatMap Prod.snd = outputs.map a.isPowered := by
  induction nodes generalizing d skipped outputs with
  | nil =>
    rw [expandBody] at h
    obtain ⟨rfl, rfl⟩ := runs_pure.1 h
    cases skipped <;> exact ⟨[], evaluates_pure [], rfl⟩
  | cons node rest ih =>
    rw [Node.allIn_cons] at hnodes
    cases skipped with
    | succ skipped => exact ih hnodes.2 hd hframe h
    | zero =>
      obtain ⟨yield, mid, hnode, values, passed, hpassed, more, hmore, rfl⟩ :=
        runs_expandBody_cons h
      have hfirst := hstep.traced hnodes.1 hnodes.2 hd.sound hnode
      have hknown := hfirst.reaches.knows hframe
      have hout : Leads Node.isCombinational limit mid values passed :=
        leads_passed hfirst.mem hknown hpassed
      have hboth := hfirst.reaches.trans hout.reaches
      have hrest := leads_expandBody hstep.traced hnodes.2 (hboth.sound hd.sound)
        (hboth.knows hframe) hmore
      have hmid := hd.between hd' hfirst.reaches (hout.reaches.trans hrest.reaches)
      have hlast := hd.between hd' hboth hrest.reaches
      have hnow := hstep.follows hnodes.1 hnodes.2 hd hmid hnode
      obtain ⟨parts, hparts, hvalues⟩ := ih hnodes.2 hlast (hboth.knows hframe) hmore
      refine ⟨(node, yield.values.map a.isPowered) :: parts, ?_⟩
      rw [List.map_append, ← hvalues]
      -- only a return passes values out, and doing so changes nothing that is known
      rcases hpassed with ⟨hreturn, hpassed⟩ | ⟨hreturn, rfl, rfl⟩
      · obtain ⟨hworld, hmap⟩ := map_passOutputs hz hmid hlast hfirst.mem hknown hpassed
        rw [hworld] at hparts
        refine ⟨hnow.bind hparts.map, ?_⟩
        simp [hreturn, hmap]
      · refine ⟨hnow.bind hparts.map, ?_⟩
        simp [hreturn]

theorem map_zip_placed (f : WireId → Bool) (arguments : List (List WireId))
    (params : List String) :
    ((placed arguments).zip params).map (fun argument => (argument.2, f argument.1.2)) =
      params.zip (arguments.flatten.map f) := by
  have hzip : ∀ (wires : List (Nat × WireId)) (params : List String),
      (wires.zip params).map (fun argument => (argument.2, f argument.1.2)) =
        params.zip (wires.map fun argument => f argument.2) := by
    intro wires
    induction wires with
    | nil => simp
    | cons wire wires ih =>
      intro params
      cases params with
      | nil => rfl
      | cons param params => simp [ih]
  rw [hzip, ← map_snd_placed, List.map_map]
  rfl

namespace BlockRun

variable {name : String} {args : List Node} {outputs : List WireId}

/-- The drafts that an invocation passes are on the way if its ends are. -/
theorem onWay (run : BlockRun limit step name args d outputs d')
    (hstep : Traced Node.isCombinational limit step)
    (hargs : Node.allIn Node.isCombinational args = true) (hd : d.OnWay limit z)
    (hd' : d'.OnWay limit z) :
    run.call.holder.OnWay limit z ∧ run.argued.OnWay limit z ∧ run.announced.OnWay limit z ∧
      run.passed.OnWay limit z ∧ run.entered.OnWay limit z ∧ run.inner.OnWay limit z := by
  have harguments := run.leads_arguments hstep hargs hd.sound
  have hpass := run.leads_bindings hstep hargs hd.sound
  have henter := run.reaches_entered hstep hargs hd.sound
  have hbody := run.leads_body hstep hargs hd.sound
  have hlast := run.reaches_last hstep hargs hd.sound
  have hrest := run.reaches_last_of_argued hstep hargs hd.sound
  have hholder : run.call.holder.OnWay limit z :=
    hd.between hd' run.reaches_holder (harguments.reaches.trans hrest)
  have hargued : run.argued.OnWay limit z := hholder.between hd' harguments.reaches hrest
  have hinner : run.inner.OnWay limit z := hargued.between hd' ((run.reaches_announced.trans
    hpass.reaches).trans (henter.trans hbody.reaches)) hlast
  have hentered : run.entered.OnWay limit z := hargued.between hinner
    ((run.reaches_announced.trans hpass.reaches).trans henter) hbody.reaches
  have hpassed : run.passed.OnWay limit z := hargued.between hentered
    (run.reaches_announced.trans hpass.reaches) henter
  exact ⟨hholder, hargued, hargued.between hpassed run.reaches_announced hpass.reaches, hpassed,
    hentered, hinner⟩

theorem world_holder (run : BlockRun limit step name args d outputs d') :
    run.call.holder.world a z = d.world a z := by
  obtain ⟨scope, outer, hcalled, hcounts, -⟩ := call?_eq_some run.hcall
  rw [hcalled]
  exact world_eq hcounts rfl

/-- The scope that is opened is a frame in which the parameters have the values of
the arguments. -/
theorem world_entered (run : BlockRun limit step name args d outputs d') (hz : z.Solution a)
    (hstep : Traced Node.isCombinational limit step)
    (hargs : Node.allIn Node.isCombinational args = true) (hd : d.OnWay limit z)
    (hd' : d'.OnWay limit z) :
    run.entered.world a z = (run.argued.world a z).enter (Frame.empty.bindAll
      (run.call.block.params.zip (run.arguments.flatten.map a.isPowered))) := by
  obtain ⟨-, -, hannounced, hpassed, -⟩ := run.onWay hstep hargs hd hd'
  obtain ⟨hworld, hbound⟩ := frame_passInputs hz hannounced hpassed
    (run.mem_ids_announced hstep hargs hd.sound) (List.forall_mem_nil _) run.knows_announced
    run.hpassed
  have hopen : run.entered.world a z =
      (run.passed.world a z).enter (run.bindings.frame a []) := rfl
  rw [hopen, hworld, hbound, map_zip_placed]
  rfl

theorem world_last (run : BlockRun limit step name args d outputs d') :
    d'.world a z = (run.inner.world a z).leave := by
  have hnoted : d'.world a z = _ := congrArg (fun last => world a last z) run.hlast
  exact hnoted.trans world_leave

theorem evaluates (run : BlockRun limit step name args d outputs d') (hz : z.Solution a)
    (hstep : Lockstep limit z a step ev)
    (hargs : Node.allIn Node.isCombinational args = true) (hd : d.OnWay limit z)
    (hd' : d'.OnWay limit z) :
    Evaluates (Evaluation.invoke ev name args) (d.world a z) (outputs.map a.isPowered)
      (d'.world a z) := by
  obtain ⟨hholder, hargued, -, -, hentered, hinner⟩ := run.onWay hstep.traced hargs hd hd'
  obtain ⟨_, _, -, -, hblock⟩ := call?_eq_some run.hcall
  have heach := evaluates_each hstep hargs hholder hargued run.harguments
  obtain ⟨parts, hparts, hvalues⟩ :=
    evaluates_body hz hstep (all_of_call hd.sound run.hcall).allIn_body
      hentered hinner (run.knows_entered hstep.traced hargs hd.sound) run.hbody
  rw [run.world_holder] at heach
  rw [run.world_entered hz hstep.traced hargs hd hd'] at hparts
  rw [← hvalues, run.world_last]
  refine Evaluates.bind (a := d.world a z) rfl ?_
  rw [block?_world, hblock]
  exact heach.bind ((evaluates_modify _).bind
    (hparts.bind ((evaluates_modify _).bind (evaluates_pure _))))

end BlockRun

/-! ## Whole expansions -/

theorem evaluates_node (hz : z.Solution a) (hstep : Lockstep limit z a step ev) {node : Node}
    {rest : List Node} {yield : Yield} (hnode : node.all Node.isCombinational = true)
    (hrest : Node.allIn Node.isCombinational rest = true) (hd : d.OnWay limit z)
    (hd' : d'.OnWay limit z) (h : Runs (expandNode limit step node rest) d yield d') :
    Evaluates (evaluateNode ev node rest) (d.world a z)
      ⟨yield.taken, yield.values.map a.isPowered⟩ (d'.world a z) := by
  cases node with
  | comment pos multiline text =>
    obtain ⟨rfl, rfl⟩ := runs_pure.1 h
    exact evaluates_pure _
  | binary pos op lhs rhs =>
    simp only [Node.all, Bool.and_eq_true] at hnode
    obtain ⟨x, left, hx, y, right, hy, wire, hplace, rfl⟩ := runs_binary h
    have hlhs : Node.allOption Node.isCombinational (some lhs) = true := hnode.2.1
    have hleft := leads_operand hstep.traced hlhs hd.sound hx
    have hright := leads_operand hstep.traced hnode.2.2 (hleft.reaches.sound hd.sound) hy
    have hboth := hleft.append hright
    have hfits : (connectiveGate op).Fits "" [x, y].length 1 := by cases op <;> exact ⟨rfl, rfl⟩
    have hgate : Leads Node.isCombinational limit right [wire] d' :=
      leads_place hplace hboth.mem hfits (Or.inl rfl)
    have honRight := hd.between hd' hboth.reaches hgate.reaches
    have honLeft := hd.between honRight hleft.reaches hright.reaches
    obtain ⟨hsignal, hworld⟩ :=
      honRight.place hz hd' hplace hfits (by cases op <;> exact GateKind.noConfusion)
    have hvalue : a.isPowered wire = op.apply (a.isPowered x) (a.isPowered y) := by
      rw [hsignal]
      cases op <;> simp [connectiveGate, GateKind.signal, Connective.apply]
    show Evaluates _ _ (Outcome.mk 1 [a.isPowered wire]) _
    rw [hvalue, hworld]
    exact (evaluates_operand hstep hlhs hd honLeft hx).bind
      ((evaluates_operand hstep hnode.2.2 honLeft honRight hy).bind (evaluates_pure _))
  | negation pos rhs =>
    simp only [Node.all, Bool.and_eq_true] at hnode
    obtain ⟨x, mid, hx, wire, hplace, rfl⟩ := runs_negation h
    have hoperand := leads_operand hstep.traced hnode.2 hd.sound hx
    have hgate : Leads Node.isCombinational limit mid [wire] d' :=
      leads_place hplace hoperand.mem ⟨rfl, rfl⟩ (Or.inl rfl)
    have hmid := hd.between hd' hoperand.reaches hgate.reaches
    obtain ⟨hsignal, hworld⟩ := hmid.place hz hd' hplace ⟨rfl, rfl⟩ (by decide)
    have hvalue : a.isPowered wire = !a.isPowered x := by
      rw [hsignal]
      rfl
    show Evaluates _ _ (Outcome.mk 1 [a.isPowered wire]) _
    rw [hvalue, hworld]
    exact (evaluates_operand hstep hnode.2 hd hmid hx).map
  | group pos members =>
    simp only [Node.all, Bool.and_eq_true] at hnode
    simp only [expandNode, runs_bind, runs_pure] at h
    obtain ⟨values, _, hvalues, rfl, rfl⟩ := h
    exact (evaluates_each hstep hnode.2 hd hd' hvalues).map
  | invocation pos name args =>
    simp only [Node.all, Bool.and_eq_true] at hnode
    obtain ⟨values, hvalues, rfl⟩ := runs_single.1 h
    have hname : Builtin.ofName? name = none := by
      have hq : (Builtin.ofName? name).isNone = true := hnode.1
      rwa [Option.isNone_iff_eq_none] at hq
    rw [invoke, hname] at hvalues
    obtain ⟨run⟩ := nonempty_blockRun hvalues
    exact (run.evaluates hz hstep hnode.2 hd hd').map
  | block pos name params outputs body =>
    simp only [expandNode, runs_bind, runs_modify, runs_pure] at h
    obtain ⟨_, _, rfl, rfl, rfl⟩ := h
    rw [world_define]
    exact (evaluates_modify _).bind (evaluates_pure _)
  | returns pos =>
    obtain ⟨block, -, -, values, hvalues, rfl, -⟩ := runs_blockReturn h
    rw [Nat.add_comm 1]
    exact (evaluates_each hstep hrest hd hd' hvalues).map
  | imports pos path => exact absurd h runs_fail
  | assignment pos names => exact evaluates_assignment hz hstep hrest hd hd' h
  | identifier pos name =>
    simp only [expandNode, runs_bind, runs_pure] at h
    obtain ⟨wire, _, hwire, rfl, rfl⟩ := h
    exact (evaluates_valueOf hz hd hd' hwire).map
  | literal pos value =>
    obtain ⟨wire, hplace, rfl⟩ := runs_gateHere h
    have hfits : (if value then GateKind.source else .ground).Fits "" 0 1 := by
      cases value <;> exact ⟨rfl, rfl⟩
    obtain ⟨hsignal, hworld⟩ :=
      hd.place hz hd' hplace hfits (by cases value <;> exact GateKind.noConfusion)
    have hvalue : a.isPowered wire = value := by
      rw [hsignal]
      cases value <;> rfl
    show Evaluates _ _ (Outcome.mk 1 [a.isPowered wire]) _
    rw [hvalue, hworld]
    exact evaluates_pure _

/-- An evaluator that descends at least as deep as a step keeps in step with it. -/
theorem lockstep_step (limit : UInt64) (hz : z.Solution a) {fuel fuel' : Nat}
    (hfuel : fuel ≤ fuel') : Lockstep limit z a (Expansion.step limit fuel) (evaluator fuel') := by
  induction fuel generalizing fuel' with
  | zero => exact ⟨traced_step _ _ 0, fun _ _ _ _ _ _ _ _ _ h => absurd h runs_throw⟩
  | succ fuel ih =>
    obtain ⟨more, rfl⟩ := Nat.exists_eq_add_of_le' hfuel
    have hinner := ih (Nat.le_add_left fuel more)
    exact ⟨traced_step _ _ (fuel + 1), fun _ _ _ _ _ hnode hrest hd hd' h =>
      evaluates_node hz hinner hnode hrest hd hd' h⟩

/-- The outputs of a description are the values of its last node. -/
theorem evaluates_expandAll (hstep : Lockstep limit z a step ev) {values values' : List WireId}
    {skipped : Nat} {nodes : List Node}
    (hnodes : Node.allIn Node.isCombinational nodes = true) (hd : d.OnWay limit z)
    (hd' : d'.OnWay limit z) (hvalues : ∀ wire ∈ values, wire ∈ d.wires.ids)
    (h : Runs (expandAll step values skipped nodes) d values' d') :
    ∃ parts, Evaluates (sequence ev skipped nodes) (d.world a z) parts (d'.world a z) ∧
      lastValues (values.map a.isPowered) parts = values'.map a.isPowered := by
  induction nodes generalizing d values skipped with
  | nil =>
    rw [expandAll] at h
    obtain ⟨rfl, rfl⟩ := runs_pure.1 h
    cases skipped <;> exact ⟨[], evaluates_pure [], rfl⟩
  | cons node rest ih =>
    rw [Node.allIn_cons] at hnodes
    cases skipped with
    | succ skipped => exact ih hnodes.2 hd hvalues h
    | zero =>
      obtain ⟨yield, mid, hnode, h⟩ := runs_expandAll_cons h
      have hfirst := hstep.traced hnodes.1 hnodes.2 hd.sound hnode
      have hkept : ∀ wire ∈ if node.isComment then values else yield.values,
          wire ∈ mid.wires.ids := by
        split
        · exact fun wire hwire => hfirst.reaches.mem_ids wire (hvalues wire hwire)
        · exact hfirst.mem
      have hrest := leads_expandAll hstep.traced hnodes.2 (hfirst.reaches.sound hd.sound) hkept h
      have hmid := hd.between hd' hfirst.reaches hrest.reaches
      obtain ⟨parts, hparts, hlast⟩ := ih hnodes.2 hmid hkept h
      have hnow := hstep.follows hnodes.1 hnodes.2 hd hmid hnode
      refine ⟨(node, yield.values.map a.isPowered) :: parts, hnow.bind hparts.map, ?_⟩
      rw [lastValues_cons, ← hlast]
      split <;> rfl

end Expansion

/-- The outputs of a description show its values, in any arena that satisfies the
equations of all gates. -/
theorem Evaluation.evaluate_eq {limit : UInt64} {nodes : List Node} {outputs : List WireId}
    {z : Draft} {a : Arena} {fuel : Nat}
    (hnodes : Node.allIn Node.isCombinational nodes = true) (hz : z.Solution a)
    (h : Draft.ofForest limit nodes = .ok (outputs, z))
    (hfuel : Expansion.nestingBound limit nodes ≤ fuel) :
    evaluate fuel (z.wires.declared.map a.isPowered) nodes =
      some (outputs.map a.isPowered) := by
  have hreaches := (Draft.leads_ofForest hnodes h).reaches
  obtain ⟨parts, hparts, hlast⟩ := Expansion.evaluates_expandAll
    (Expansion.lockstep_step limit hz hfuel) hnodes ⟨.refl, hreaches⟩ ⟨hreaches, .refl⟩
    (List.forall_mem_nil _) h
  have hstart : Draft.empty.world a z = ⟨.empty, [], z.wires.declared.map a.isPowered⟩ := rfl
  rw [hstart] at hparts
  unfold Evaluates at hparts
  rw [evaluate, hparts, ← hlast]
  rfl

end Gatework
