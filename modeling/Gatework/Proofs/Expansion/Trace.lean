import Gatework.Proofs.Expansion.Change

/-!
# Expansions are sequences of changes

Whatever tree an expansion is given, if it does not halt then it has got from its
first draft to its last one by changes, and the wires that it gives are wires of
the last draft.

There are four groups.

* `Leads` is this relation between two drafts and some wires.
* The pieces of the expansion.  A step that leads from draft to draft (`Traced`)
  makes pieces that do.
* Invocations.  An invocation is noted before its inputs are passed, so that the
  gates that pass them have a context.
* `traced_step` ties the recursion by induction on the bound of the depth, and
  `leads_ofForest` is the result for a whole description, whose netlist is that of
  its draft (`eq_linkContexts_of_ofForest`).
-/

namespace Gatework

open Draft

namespace Expansion

variable {q : Node → Bool} {limit : UInt64} {step : Step} {pos : Position} {d d' d'' : Draft}

/-! ## Leading from draft to draft -/

/-- Changes turn the first draft into the last one, which has the wires. -/
structure Leads (q : Node → Bool) (limit : UInt64) (d : Draft) (wires : List WireId)
    (d' : Draft) : Prop where
  reaches : d.Reaches q limit d'
  mem : ∀ wire ∈ wires, wire ∈ d'.wires.ids

theorem Leads.refl {wires : List WireId} (h : ∀ wire ∈ wires, wire ∈ d.wires.ids) :
    Leads q limit d wires d := ⟨.refl, h⟩

theorem Leads.nil (h : d.Reaches q limit d') : Leads q limit d [] d' :=
  ⟨h, List.forall_mem_nil _⟩

/-- The wires of an earlier draft are wires of a later one. -/
theorem Leads.append {wires wires' : List WireId} (h : Leads q limit d wires d')
    (h' : Leads q limit d' wires' d'') : Leads q limit d (wires ++ wires') d'' := by
  refine ⟨h.reaches.trans h'.reaches, fun wire hwire => ?_⟩
  rcases List.mem_append.1 hwire with hwire | hwire
  · exact h'.reaches.mem_ids wire (h.mem wire hwire)
  · exact h'.mem wire hwire

theorem Leads.after {wires : List WireId} (h : d.Reaches q limit d')
    (h' : Leads q limit d' wires d'') : Leads q limit d wires d'' :=
  ⟨h.trans h'.reaches, h'.mem⟩

theorem Leads.reaching {wires : List WireId} (h : Leads q limit d wires d')
    (h' : d'.Reaches q limit d'') : Leads q limit d wires d'' :=
  ⟨h.reaches.trans h', fun wire hwire => h'.mem_ids wire (h.mem wire hwire)⟩

theorem leads_place {kind : GateKind} {label : String} {inputs outputs : List WireId}
    {count : Nat} {context : ContextId}
    (h : d.place kind label inputs count context = (outputs, d'))
    (hinputs : ∀ wire ∈ inputs, wire ∈ d.wires.ids) (hfits : kind.Fits label inputs.length count)
    (hcontext : context = d.scope.id ∨ d.Knows context) :
    Leads q limit d outputs d' := by
  have hchange : Change q limit d (d.place kind label inputs count context).2 :=
    .place hinputs hfits hcontext
  have hmem := (mem_ids_place kind label inputs count context d).1
  rw [h] at hchange hmem
  exact ⟨.step hchange, hmem⟩

/-- A step whose runs lead from draft to draft. -/
def Traced (q : Node → Bool) (limit : UInt64) (step : Step) : Prop :=
  ∀ ⦃node : Node⦄ ⦃rest : List Node⦄ ⦃d : Draft⦄ ⦃yield : Yield⦄ ⦃d' : Draft⦄,
    node.all q = true → Node.allIn q rest = true → d.Sound q →
      Runs (step node rest) d yield d' → Leads q limit d yield.values d'

/-! ## Pieces of the expansion -/

theorem leads_operand (hstep : Traced q limit step) {kind : TokenKind} {side : Side}
    {rhs : Option Node} {wire : WireId} (hrhs : Node.allOption q rhs = true) (hd : d.Sound q)
    (h : Runs (operand step kind side pos rhs) d wire d') : Leads q limit d [wire] d' := by
  obtain ⟨node, taken, rfl, hnode⟩ := runs_operand h
  exact hstep hrhs rfl hd hnode

theorem leads_valuesEach (hstep : Traced q limit step) {nodes : List Node}
    {values : List (List WireId)} (hnodes : Node.allIn q nodes = true) (hd : d.Sound q)
    (h : Runs (valuesEach step nodes) d values d') : Leads q limit d values.flatten d' := by
  induction nodes generalizing d values with
  | nil =>
    obtain ⟨rfl, rfl⟩ := runs_pure.1 h
    exact .nil .refl
  | cons node rest ih =>
    rw [Node.allIn_cons] at hnodes
    obtain ⟨yield, between, hnode, more, hmore, rfl⟩ := runs_valuesEach_cons.1 h
    have hfirst := hstep hnodes.1 rfl hd hnode
    exact hfirst.append (ih hnodes.2 (hfirst.reaches.sound hd) hmore)

theorem leads_gateHere {kind : GateKind} {inputs : List WireId} {yield : Yield}
    (hinputs : ∀ wire ∈ inputs, wire ∈ d.wires.ids) (hfits : kind.Fits "" inputs.length 1)
    (h : Runs (gateHere kind inputs) d yield d') : Leads q limit d yield.values d' := by
  obtain ⟨wire, hplace, rfl⟩ := runs_gateHere h
  exact leads_place hplace hinputs hfits (Or.inl rfl)

theorem leads_assignedValues (hstep : Traced q limit step) {names : List String}
    {values : List WireId} {taken : Nat} {nodes : List Node} {yield : Yield}
    (hnodes : Node.allIn q nodes = true) (hd : d.Sound q)
    (hvalues : ∀ wire ∈ values, wire ∈ d.wires.ids)
    (h : Runs (assignedValues step pos names values taken nodes) d yield d') :
    Leads q limit d yield.values d' := by
  obtain ⟨front, back, more, rfl, -, hmore, rfl⟩ := exists_front_of_assignedValues h
  exact (Leads.refl hvalues).append
    (leads_valuesEach hstep (Node.allIn_of_append hnodes) hd hmore)

theorem reaches_assignAll {pairs : List (String × WireId)}
    (hpairs : ∀ pair ∈ pairs, pair.2 ∈ d.wires.ids) :
    d.Reaches q limit (d.assignAll pairs) := by
  induction pairs generalizing d with
  | nil => exact .refl
  | cons pair pairs ih =>
    have hfirst : Change q limit d (d.assign pair.1 pair.2) :=
      .assign (hpairs pair List.mem_cons_self)
    refine (Reaches.step hfirst).trans (ih fun other hother => ?_)
    exact hfirst.mem_ids _ (hpairs other (List.mem_cons_of_mem _ hother))

theorem leads_assignment (hstep : Traced q limit step) {names : List String} {rest : List Node}
    {yield : Yield} (hrest : Node.allIn q rest = true) (hd : d.Sound q)
    (h : Runs (assignment step pos names rest) d yield d') :
    Leads q limit d yield.values d' := by
  obtain ⟨taken, values, between, hvalues, rfl, rfl⟩ := runs_assignment h
  have hleads := leads_assignedValues hstep hrest hd
    (List.forall_mem_nil _) hvalues
  refine .nil (hleads.reaches.trans (reaches_assignAll fun pair hpair => ?_))
  exact hleads.mem _ (List.of_mem_zip hpair).2

/-! ## Invocations -/

theorem leads_invokeBuiltin (hstep : Traced q limit step) {builtin : Builtin}
    {args : List Node} {outputs : List WireId} (hargs : Node.allIn q args = true)
    (hd : d.Sound q) (h : Runs (invokeBuiltin step pos builtin args) d outputs d') :
    Leads q limit d outputs d' := by
  obtain ⟨arguments, between, harguments, hlen, hplace⟩ := runs_invokeBuiltin h
  have hleads := leads_valuesEach hstep hargs hd harguments
  exact .after hleads.reaches
    (leads_place hplace hleads.mem ⟨builtin, rfl, hlen, rfl⟩ (Or.inl rfl))

theorem Leads.mem_ids_insert {bindings : Bindings} {param : String} {bound : WireId}
    (h : Leads q limit d [bound] d') (hbindings : ∀ binding ∈ bindings, binding.2 ∈ d.wires.ids) :
    ∀ binding ∈ bindings.insert param bound, binding.2 ∈ d'.wires.ids := by
  intro binding hbinding
  rcases Bindings.mem_insert hbinding with hbinding | rfl
  · exact h.reaches.mem_ids _ (hbindings binding hbinding)
  · exact h.mem bound List.mem_cons_self

/-- Passing inputs binds parameters to wires of the draft. -/
theorem leads_passInputs {block : Block} {count : Nat} {frame : ContextId}
    {bindings bindings' : Bindings} {passed : List ((Nat × WireId) × String)}
    (hpassed : ∀ argument ∈ passed, argument.1.2 ∈ d.wires.ids)
    (hbindings : ∀ binding ∈ bindings, binding.2 ∈ d.wires.ids)
    (hframe : d.Knows frame)
    (h : Runs (passInputs block count frame bindings passed) d bindings' d') :
    Leads q limit d (bindings'.map Prod.snd) d' := by
  induction passed generalizing d bindings with
  | nil =>
    obtain ⟨rfl, rfl⟩ := runs_pure.1 h
    refine .refl fun wire hwire => ?_
    obtain ⟨binding, hbinding, rfl⟩ := List.mem_map.1 hwire
    exact hbindings binding hbinding
  | cons first rest ih =>
    obtain ⟨⟨place, wire⟩, param⟩ := first
    obtain ⟨label, bound, between, hplace, h⟩ := runs_passInputs_cons h
    have hwire : ∀ input ∈ [wire], input ∈ d.wires.ids :=
      List.forall_mem_singleton.2 (hpassed _ List.mem_cons_self)
    have hgate : Leads q limit d [bound] between :=
      leads_place hplace hwire ⟨rfl, rfl⟩ (Or.inr hframe)
    have hrest : ∀ argument ∈ rest, argument.1.2 ∈ between.wires.ids := fun argument hargument =>
      hgate.reaches.mem_ids _ (hpassed argument (List.mem_cons_of_mem _ hargument))
    exact .after hgate.reaches
      (ih hrest (hgate.mem_ids_insert hbindings) (hgate.reaches.knows hframe) h)

theorem leads_passOutputs {block : Block} {count : Nat} {frame : ContextId} {place : Nat}
    {wires outputs : List WireId} (hwires : ∀ wire ∈ wires, wire ∈ d.wires.ids)
    (hframe : d.Knows frame)
    (h : Runs (passOutputs block count frame place wires) d outputs d') :
    Leads q limit d outputs d' := by
  induction wires generalizing d place outputs with
  | nil =>
    obtain ⟨rfl, rfl⟩ := runs_pure.1 h
    exact .nil .refl
  | cons wire rest ih =>
    obtain ⟨label, output, between, hplace, more, hmore, rfl⟩ := runs_passOutputs_cons h
    have hwire : ∀ input ∈ [wire], input ∈ d.wires.ids :=
      List.forall_mem_singleton.2 (hwires wire List.mem_cons_self)
    have hgate : Leads q limit d [output] between :=
      leads_place hplace hwire ⟨rfl, rfl⟩ (Or.inr hframe)
    have hrest : ∀ other ∈ rest, other ∈ between.wires.ids := fun other hother =>
      hgate.reaches.mem_ids _ (hwires other (List.mem_cons_of_mem _ hother))
    exact hgate.append (ih hrest (hgate.reaches.knows hframe) hmore)

/-- A node of a body passes out wires of the draft, if it is a return. -/
theorem leads_passed {block : Block} {count : Nat} {frame : ContextId} {node : Node}
    {wires outputs : List WireId} (hwires : ∀ wire ∈ wires, wire ∈ d.wires.ids)
    (hframe : d.Knows frame)
    (h : node.isReturn = true ∧ Runs (passOutputs block count frame 0 wires) d outputs d' ∨
      node.isReturn = false ∧ outputs = [] ∧ d' = d) : Leads q limit d outputs d' := by
  rcases h with ⟨-, hpassed⟩ | ⟨-, rfl, rfl⟩
  · exact leads_passOutputs hwires hframe hpassed
  · exact .nil .refl

theorem leads_expandBody (hstep : Traced q limit step) {block : Block} {count : Nat}
    {frame : ContextId} {skipped : Nat} {nodes : List Node} {outputs : List WireId}
    (hnodes : Node.allIn q nodes = true) (hd : d.Sound q)
    (hframe : d.Knows frame)
    (h : Runs (expandBody step block count frame skipped nodes) d outputs d') :
    Leads q limit d outputs d' := by
  induction nodes generalizing d skipped outputs with
  | nil =>
    rw [expandBody] at h
    obtain ⟨rfl, rfl⟩ := runs_pure.1 h
    exact .nil .refl
  | cons node rest ih =>
    rw [Node.allIn_cons] at hnodes
    cases skipped with
    | succ skipped => exact ih hnodes.2 hd hframe h
    | zero =>
      obtain ⟨yield, between, hnode, values, passed, hpassed, more, hmore, rfl⟩ :=
        runs_expandBody_cons h
      have hfirst := hstep hnodes.1 hnodes.2 hd hnode
      have hout : Leads q limit between values passed :=
        leads_passed hfirst.mem (hfirst.reaches.knows hframe) hpassed
      have hboth := hfirst.reaches.trans hout.reaches
      exact .after hfirst.reaches
        (hout.append (ih hnodes.2 (hboth.sound hd) (hboth.knows hframe) hmore))

theorem mem_of_mem_placed {arguments : List (List WireId)} {argument : Nat × WireId}
    (h : argument ∈ placed arguments) : argument.2 ∈ arguments.flatten := by
  obtain ⟨⟨wires, place⟩, hwires, hargument⟩ := List.mem_flatMap.1 h
  obtain ⟨wire, hwire, rfl⟩ := List.mem_map.1 hargument
  have hmem : wires ∈ arguments := (List.mem_zipIdx' hwires).2 ▸ List.getElem_mem _
  exact List.mem_flatten.2 ⟨wires, hmem, hwire⟩

/-- The block of a call has the property of those that are defined. -/
theorem all_of_call {name : String} {call : Call Draft} (hd : d.Sound q)
    (h : d.call? name = some call) : call.block.All q := by
  obtain ⟨_, _, _, _, hblock⟩ := call?_eq_some h
  obtain ⟨scope, hscope, hfind⟩ := List.exists_of_findSome?_eq_some hblock
  obtain ⟨definition, hdefinition, heq⟩ := List.mem_map.1 (List.mem_of_find?_eq_some hfind)
  rw [← heq]
  exact hd.blocks scope hscope definition hdefinition

namespace BlockRun

variable {name : String} {args : List Node} {outputs : List WireId}
  (run : BlockRun limit step name args d outputs d')

theorem reaches_holder : d.Reaches q limit run.call.holder := .step (.call run.hcall)

theorem leads_arguments (hstep : Traced q limit step) (hargs : Node.allIn q args = true)
    (hd : d.Sound q) : Leads q limit run.call.holder run.arguments.flatten run.argued :=
  leads_valuesEach hstep hargs (run.reaches_holder.sound hd) run.harguments

theorem reaches_announced : run.argued.Reaches q limit run.announced :=
  .step (.announce run.hdepth)

theorem mem_contexts_announced :
    ⟨run.frame, run.call.block.name, run.argued.scopes.length, run.argued.scope.id, []⟩ ∈
      run.announced.contexts := List.mem_cons_self

/-- The invocation is noted before its inputs are passed. -/
theorem knows_announced : run.announced.Knows run.frame := ⟨_, run.mem_contexts_announced, rfl⟩

theorem mem_ids_announced (hstep : Traced q limit step) (hargs : Node.allIn q args = true)
    (hd : d.Sound q) : ∀ argument ∈ (placed run.arguments).zip run.call.block.params,
      argument.1.2 ∈ run.announced.wires.ids := by
  intro argument hargument
  have hmem := mem_of_mem_placed (List.of_mem_zip hargument).1
  exact (run.leads_arguments hstep hargs hd).mem _ hmem

theorem leads_bindings (hstep : Traced q limit step) (hargs : Node.allIn q args = true)
    (hd : d.Sound q) : Leads q limit run.announced (run.bindings.map Prod.snd) run.passed :=
  leads_passInputs (run.mem_ids_announced hstep hargs hd)
    (List.forall_mem_nil _) run.knows_announced run.hpassed

/-- The scope that is opened belongs to the invocation that has been noted. -/
theorem reaches_entered (hstep : Traced q limit step) (hargs : Node.allIn q args = true)
    (hd : d.Sound q) : run.passed.Reaches q limit run.entered := by
  obtain ⟨hscopes, hcontexts, -⟩ := runs_passInputs_addContext run.hpassed
    ⟨run.frame, run.call.block.name, run.argued.scopes.length, run.argued.scope.id, []⟩
  have hscope : run.passed.scope = run.argued.scope := (List.cons.inj hscopes).1
  refine .step (.enter ?_ fun binding hbinding => ?_)
  · rw [hcontexts, hscopes, hscope]
    exact run.mem_contexts_announced
  · exact (run.leads_bindings hstep hargs hd).mem _ (List.mem_map_of_mem hbinding)

theorem knows_entered (hstep : Traced q limit step) (hargs : Node.allIn q args = true)
    (hd : d.Sound q) : run.entered.Knows run.frame :=
  (run.reaches_entered hstep hargs hd).knows
    ((run.leads_bindings hstep hargs hd).reaches.knows run.knows_announced)

theorem reaches_entered_of_start (hstep : Traced q limit step)
    (hargs : Node.allIn q args = true) (hd : d.Sound q) : d.Reaches q limit run.entered := by
  have hargued := run.reaches_holder.trans (run.leads_arguments hstep hargs hd).reaches
  have hpassed := run.reaches_announced.trans (run.leads_bindings hstep hargs hd).reaches
  exact hargued.trans (hpassed.trans (run.reaches_entered hstep hargs hd))

theorem sound_entered (hstep : Traced q limit step) (hargs : Node.allIn q args = true)
    (hd : d.Sound q) : run.entered.Sound q :=
  (run.reaches_entered_of_start hstep hargs hd).sound hd

theorem leads_body (hstep : Traced q limit step) (hargs : Node.allIn q args = true)
    (hd : d.Sound q) : Leads q limit run.entered outputs run.inner :=
  leads_expandBody hstep (all_of_call hd run.hcall).allIn_body
    (run.sound_entered hstep hargs hd) (run.knows_entered hstep hargs hd) run.hbody

theorem reaches_last (hstep : Traced q limit step) (hargs : Node.allIn q args = true)
    (hd : d.Sound q) : run.inner.Reaches q limit d' := by
  have hleave : run.inner.Reaches q limit run.inner.leave := .step .leave
  have hmem := ((run.leads_body hstep hargs hd).reaching hleave).mem
  have hnote : run.inner.leave.Reaches q limit
      (run.inner.leave.noteExpanded ⟨run.frame, run.call.block, outputs⟩) :=
    .step (.note (all_of_call hd run.hcall) hmem)
  have hboth := hleave.trans hnote
  rwa [frame, ← run.hlast] at hboth

theorem reaches_last_of_passed (hstep : Traced q limit step)
    (hargs : Node.allIn q args = true) (hd : d.Sound q) : run.passed.Reaches q limit d' :=
  (run.reaches_entered hstep hargs hd).trans
    ((run.leads_body hstep hargs hd).reaches.trans (run.reaches_last hstep hargs hd))

theorem reaches_last_of_argued (hstep : Traced q limit step)
    (hargs : Node.allIn q args = true) (hd : d.Sound q) : run.argued.Reaches q limit d' :=
  run.reaches_announced.trans ((run.leads_bindings hstep hargs hd).reaches.trans
    (run.reaches_last_of_passed hstep hargs hd))

theorem leads (run : BlockRun limit step name args d outputs d') (hstep : Traced q limit step)
    (hargs : Node.allIn q args = true) (hd : d.Sound q) : Leads q limit d outputs d' := by
  have hargued := run.reaches_holder.trans (run.leads_arguments hstep hargs hd).reaches
  have hbody := run.leads_body hstep hargs hd
  exact ⟨hargued.trans (run.reaches_last_of_argued hstep hargs hd),
    (hbody.reaching (run.reaches_last hstep hargs hd)).mem⟩

end BlockRun

/-! ## Whole expansions -/

theorem leads_wireOf {name : String} {wire : WireId} (hd : d.Sound q)
    (h : Runs (wireOf name) d wire d') : Leads q limit d [wire] d' := by
  rcases runs_wireOf h with ⟨hbound, rfl⟩ | ⟨hnone, hdeclared⟩
  · obtain ⟨scope, hscope, hfind⟩ := List.exists_of_findSome?_eq_some hbound
    exact .refl (List.forall_mem_singleton.2
      (hd.bound scope hscope _ (Bindings.mem_of_find? hfind)))
  · have hchange : Change q limit d (d.declare name).2 := .declare hnone
    have hmem : (d.declare name).1 ∈ (d.declare name).2.wires.ids := (d.mem_ids_newWire _).1
    rw [hdeclared] at hchange hmem
    exact ⟨.step hchange, List.forall_mem_singleton.2 hmem⟩

theorem traced_expandNode (hstep : Traced q limit step) :
    Traced q limit (expandNode limit step) := by
  intro node rest d yield d' hnode hrest hd h
  cases node with
  | comment pos multiline text =>
    obtain ⟨rfl, rfl⟩ := runs_pure.1 h
    exact .nil .refl
  | binary pos op lhs rhs =>
    simp only [Node.all, Bool.and_eq_true] at hnode
    obtain ⟨a, left, ha, b, right, hb, wire, hplace, rfl⟩ := runs_binary h
    have hlhs : Node.allOption q (some lhs) = true := hnode.2.1
    have hleft := leads_operand hstep hlhs hd ha
    have hright := leads_operand hstep hnode.2.2 (hleft.reaches.sound hd) hb
    have hboth := hleft.append hright
    refine .after hboth.reaches (leads_place hplace hboth.mem ?_ (Or.inl rfl))
    cases op <;> exact ⟨rfl, rfl⟩
  | negation pos rhs =>
    simp only [Node.all, Bool.and_eq_true] at hnode
    obtain ⟨a, between, ha, wire, hplace, rfl⟩ := runs_negation h
    have hoperand := leads_operand hstep hnode.2 hd ha
    exact .after hoperand.reaches
      (leads_place hplace hoperand.mem ⟨rfl, rfl⟩ (Or.inl rfl))
  | group pos members =>
    simp only [Node.all, Bool.and_eq_true] at hnode
    simp only [expandNode, runs_bind, runs_pure] at h
    obtain ⟨values, between, hvalues, rfl, rfl⟩ := h
    exact leads_valuesEach hstep hnode.2 hd hvalues
  | invocation pos name args =>
    simp only [Node.all, Bool.and_eq_true] at hnode
    obtain ⟨values, hvalues, rfl⟩ := runs_single.1 h
    rw [invoke] at hvalues
    split at hvalues
    · exact leads_invokeBuiltin hstep hnode.2 hd hvalues
    · obtain ⟨run⟩ := nonempty_blockRun hvalues
      exact run.leads hstep hnode.2 hd
  | block pos name params outputs body =>
    simp only [expandNode, runs_bind, runs_modify, runs_pure] at h
    obtain ⟨_, _, rfl, rfl, rfl⟩ := h
    exact .nil (.step (.define ⟨pos, hnode⟩))
  | returns pos =>
    obtain ⟨block, -, -, values, hvalues, rfl, -⟩ := runs_blockReturn h
    exact leads_valuesEach hstep hrest hd hvalues
  | imports pos path => exact absurd h runs_fail
  | assignment pos names => exact leads_assignment hstep hrest hd h
  | identifier pos name =>
    simp only [expandNode, runs_bind, runs_pure] at h
    obtain ⟨wire, between, hwire, rfl, rfl⟩ := h
    exact leads_wireOf hd hwire
  | literal pos value =>
    refine leads_gateHere (List.forall_mem_nil _) ?_ h
    cases value <;> exact ⟨rfl, rfl⟩

theorem traced_step (q : Node → Bool) (limit : UInt64) (fuel : Nat) :
    Traced q limit (Expansion.step limit fuel) := by
  induction fuel with
  | zero => exact fun _ _ _ _ _ _ _ _ h => absurd h runs_throw
  | succ fuel ih => exact traced_expandNode ih

theorem leads_expandAll (hstep : Traced q limit step) {values values' : List WireId}
    {skipped : Nat} {nodes : List Node} (hnodes : Node.allIn q nodes = true) (hd : d.Sound q)
    (hvalues : ∀ wire ∈ values, wire ∈ d.wires.ids)
    (h : Runs (expandAll step values skipped nodes) d values' d') :
    Leads q limit d values' d' := by
  induction nodes generalizing d values skipped with
  | nil =>
    rw [expandAll] at h
    obtain ⟨rfl, rfl⟩ := runs_pure.1 h
    exact .refl hvalues
  | cons node rest ih =>
    rw [Node.allIn_cons] at hnodes
    cases skipped with
    | succ skipped => exact ih hnodes.2 hd hvalues h
    | zero =>
      obtain ⟨yield, between, hnode, h⟩ := runs_expandAll_cons h
      have hfirst := hstep hnodes.1 hnodes.2 hd hnode
      refine .after hfirst.reaches (ih hnodes.2 (hfirst.reaches.sound hd) ?_ h)
      split
      · exact fun wire hwire => hfirst.reaches.mem_ids wire (hvalues wire hwire)
      · exact hfirst.mem

end Expansion

/-- The draft of a description has been got by changes from the empty one, and has
the wires of the outputs. -/
theorem Draft.leads_ofForest {q : Node → Bool} {limit : UInt64} {nodes : List Node}
    {outputs : List WireId} {d : Draft} (hnodes : Node.allIn q nodes = true)
    (h : Draft.ofForest limit nodes = .ok (outputs, d)) :
    Expansion.Leads q limit .empty outputs d :=
  Expansion.leads_expandAll (Expansion.traced_step q limit _) hnodes (sound_empty q)
    (List.forall_mem_nil _) h

namespace Netlist

/-- What is read off an expansion that has been run tells that it ends with a netlist. -/
theorem exists_of_toOption_map {α : Type} {limit : UInt64} {nodes : List Node} {view : Netlist → α}
    {a : α} (h : (ofForest limit nodes).toOption.map view = some a) :
    ∃ n, ofForest limit nodes = .ok n ∧ view n = a := by
  cases hn : ofForest limit nodes with
  | error halt =>
    rw [hn] at h
    exact absurd h nofun
  | ok n =>
    rw [hn] at h
    exact ⟨n, rfl, Option.some.inj h⟩

/-- The netlist of a description is that of its draft, with linked contexts. -/
theorem eq_linkContexts_of_ofForest {limit : UInt64} {nodes : List Node} {n : Netlist}
    (h : ofForest limit nodes = .ok n) :
    ∃ outputs d, Draft.ofForest limit nodes = .ok (outputs, d) ∧
      n = { d.netlist with outputs }.linkContexts := by
  unfold ofForest at h
  cases hd : Draft.ofForest limit nodes with
  | error halt =>
    rw [hd] at h
    exact absurd h nofun
  | ok result =>
    obtain ⟨outputs, d⟩ := result
    rw [hd] at h
    cases h
    exact ⟨outputs, d, rfl, rfl⟩

end Netlist

end Gatework
