import Gatework.Expansion

/-!
# Runs of an expansion

What follows from the fact that a piece of the expansion has run without a halt.

There are three groups.

* `Runs`, and what a run of each of the primitive computations is.
* New wires and gates.  `Draft.place` puts a gate on wires of its own, which is
  how every gate of a draft comes about, and `Draft.declare` gives a wire to a
  name that is not bound.
* One lemma for each piece of the expansion, which says all that its run says
  about the runs of its parts.
-/

namespace Gatework

/-! ## Primitive computations -/

namespace Expansion

variable {α β : Type} {d d' : Draft}

/-- A computation on a draft gives a value, and leaves a draft. -/
def Runs (x : Expansion α) (d : Draft) (a : α) (d' : Draft) : Prop := x.run d = .ok (a, d')

theorem ok_eq_ok_iff {a b : α} :
    (Except.ok (a, d) : Except Halt (α × Draft)) = .ok (b, d') ↔ b = a ∧ d' = d := by
  rw [Except.ok.injEq, Prod.mk.injEq, eq_comm, @eq_comm _ d d']

/-- A computation has at most one outcome. -/
theorem Runs.unique {x : Expansion α} {a b : α} {d'' : Draft} (h : Runs x d a d')
    (h' : Runs x d b d'') : a = b ∧ d' = d'' := by
  have heq := h.symm.trans h'
  cases heq
  exact ⟨rfl, rfl⟩

theorem runs_pure {a b : α} : Runs (pure a) d b d' ↔ b = a ∧ d' = d := ok_eq_ok_iff

theorem runs_bind {x : Expansion α} {f : α → Expansion β} {b : β} :
    Runs (x >>= f) d b d' ↔ ∃ a between, Runs x d a between ∧ Runs (f a) between b d' := by
  unfold Runs
  rw [StateT.run_bind]
  cases hx : x.run d with
  | error halt => simp [bind, Except.bind]
  | ok result =>
    obtain ⟨a, between⟩ := result
    constructor
    · exact fun h => ⟨a, between, rfl, h⟩
    · rintro ⟨a', between', heq, h⟩
      cases heq
      exact h

theorem runs_throw {halt : Halt} {a : α} : ¬Runs (throw halt) d a d' := nofun

theorem runs_fail {error : ExpansionError} {a : α} : ¬Runs (fail error) d a d' := nofun

theorem runs_get {a : Draft} : Runs get d a d' ↔ a = d ∧ d' = d := ok_eq_ok_iff

theorem runs_set {new : Draft} {a : PUnit} : Runs (set new) d a d' ↔ d' = new :=
  ok_eq_ok_iff.trans (and_iff_right rfl)

theorem runs_modify {f : Draft → Draft} {a : PUnit} : Runs (modify f) d a d' ↔ d' = f d :=
  ok_eq_ok_iff.trans (and_iff_right rfl)

theorem runs_modifyGet {f : Draft → α × Draft} {a : α} :
    Runs (modifyGet f) d a d' ↔ f d = (a, d') :=
  Except.ok.injEq _ _ ▸ Iff.rfl

end Expansion

/-! ## New wires and gates -/

namespace Draft

/-- Adds some wires under the next numbers. -/
def newWires : Nat → Draft → List WireId × Draft
  | 0, d => ([], d)
  | count + 1, d =>
    let first := d.newWire none
    let more := newWires count first.2
    (first.1 :: more.1, more.2)

/-- Adds a gate whose outputs are new wires. -/
def place (kind : GateKind) (label : String) (inputs : List WireId) (count : Nat)
    (context : ContextId) (d : Draft) : List WireId × Draft :=
  let grown := d.newWires count
  (grown.1, grown.2.newGate kind label inputs grown.1 context)

/-- Gives a name a wire of its own. -/
def declare (name : String) (d : Draft) : WireId × Draft :=
  let grown := d.newWire (some (Wire.implicitDesc name))
  (grown.1, grown.2.bind name grown.1)

/-- Gives an invocation its number, and notes it.  Its scope is not opened yet. -/
def announce (name : String) (d : Draft) : Draft :=
  d.newFrame.2.addContext ⟨⟨d.lastFrame + 1⟩, name, d.scopes.length, d.scope.id, []⟩

/-- New wires change the arena and the last number, and nothing else. -/
theorem newWires_eq (count : Nat) (d : Draft) :
    ∃ wires lastWire, (d.newWires count).2 = { d with wires, lastWire } := by
  induction count generalizing d with
  | zero => exact ⟨d.wires, d.lastWire, rfl⟩
  | succ count ih => exact ih (d.newWire none).2

end Draft

namespace Expansion

variable {d d' : Draft}

theorem runs_newWire {desc : Option String} {wire : WireId} :
    Runs (newWire desc) d wire d' ↔ d.newWire desc = (wire, d') := runs_modifyGet

theorem runs_newWires {count : Nat} {wires : List WireId} (h : Runs (newWires count) d wires d') :
    d.newWires count = (wires, d') := by
  induction count generalizing d wires with
  | zero =>
    obtain ⟨rfl, rfl⟩ := runs_pure.1 h
    rfl
  | succ count ih =>
    simp only [newWires, runs_bind, runs_newWire, runs_pure] at h
    obtain ⟨wire, between, hwire, more, last, hmore, rfl, rfl⟩ := h
    have hrest := ih hmore
    simp only [Draft.newWires, hwire, hrest]

theorem runs_newGate {kind : GateKind} {label : String} {inputs : List WireId}
    {context : ContextId} {wire : WireId} :
    Runs (newGate kind label inputs context) d wire d' ↔
      d.place kind label inputs 1 context = ([wire], d') := by
  simp only [newGate, runs_bind, runs_newWire, runs_modify, runs_pure]
  constructor
  · rintro ⟨output, between, houtput, _, last, rfl, rfl, rfl⟩
    simp only [Draft.place, Draft.newWires, houtput]
  · intro h
    cases h
    exact ⟨_, _, rfl, ⟨⟩, _, rfl, rfl, rfl⟩

/-! ## Pieces of the expansion -/

variable {limit : UInt64} {step : Step} {pos : Position}

theorem runs_operand {kind : TokenKind} {side : Side} {rhs : Option Node} {wire : WireId}
    (h : Runs (operand step kind side pos rhs) d wire d') :
    ∃ node taken, rhs = some node ∧ Runs (step node []) d ⟨taken, [wire]⟩ d' := by
  cases rhs with
  | none => exact absurd h runs_fail
  | some node =>
    rw [operand, runs_bind] at h
    obtain ⟨⟨taken, values⟩, between, hnode, h⟩ := h
    dsimp only at h
    split at h
    · next first =>
      obtain ⟨rfl, rfl⟩ := runs_pure.1 h
      exact ⟨node, taken, rfl, hnode⟩
    · exact absurd h runs_fail

theorem runs_valuesEach_cons {node : Node} {rest : List Node} {values : List (List WireId)} :
    Runs (valuesEach step (node :: rest)) d values d' ↔
      ∃ yield between, Runs (step node []) d yield between ∧
        ∃ more, Runs (valuesEach step rest) between more d' ∧ values = yield.values :: more := by
  simp only [valuesEach, runs_bind, runs_pure]
  constructor
  · rintro ⟨yield, between, hnode, more, last, hmore, rfl, rfl⟩
    exact ⟨yield, between, hnode, more, hmore, rfl⟩
  · rintro ⟨yield, between, hnode, more, hmore, rfl⟩
    exact ⟨yield, between, hnode, more, d', hmore, rfl, rfl⟩

theorem runs_valuesEach_append {front back : List Node} {values : List (List WireId)}
    (h : Runs (valuesEach step (front ++ back)) d values d') :
    ∃ first between more, Runs (valuesEach step front) d first between ∧
      Runs (valuesEach step back) between more d' ∧ values = first ++ more := by
  induction front generalizing d values with
  | nil => exact ⟨[], d, values, runs_pure.2 ⟨rfl, rfl⟩, h, rfl⟩
  | cons node front ih =>
    obtain ⟨yield, between, hnode, more, hmore, rfl⟩ := runs_valuesEach_cons.1 h
    obtain ⟨first, last, rest, hfirst, hrest, rfl⟩ := ih hmore
    exact ⟨yield.values :: first, last, rest,
      runs_valuesEach_cons.2 ⟨yield, between, hnode, first, hfirst, rfl⟩, hrest, rfl⟩

theorem runs_valuesEach_operand {kind : TokenKind} {side : Side} {rhs : Option Node} {wire : WireId}
    (h : Runs (operand step kind side pos rhs) d wire d') :
    Runs (valuesEach step rhs.toList) d [[wire]] d' := by
  obtain ⟨node, taken, rfl, hnode⟩ := runs_operand h
  exact runs_valuesEach_cons.2 ⟨_, d', hnode, [], runs_pure.2 ⟨rfl, rfl⟩, rfl⟩

theorem runs_gateHere {kind : GateKind} {inputs : List WireId} {yield : Yield}
    (h : Runs (gateHere kind inputs) d yield d') :
    ∃ wire, d.place kind "" inputs 1 d.scope.id = ([wire], d') ∧ yield = .single [wire] := by
  simp only [gateHere, runs_bind, runs_get, runs_pure] at h
  obtain ⟨_, _, ⟨rfl, rfl⟩, wire, last, hgate, rfl, rfl⟩ := h
  exact ⟨wire, runs_newGate.1 hgate, rfl⟩

/-- An assignment has all its values, or it takes one sibling more. -/
theorem runs_assignedValues {names : List String} {values : List WireId} {taken : Nat}
    {nodes : List Node} {yield : Yield}
    (h : Runs (assignedValues step pos names values taken nodes) d yield d') :
    (names.length ≤ values.length ∧ yield = ⟨taken, values⟩ ∧ d' = d) ∨
      ∃ node rest first between, nodes = node :: rest ∧ values.length < names.length ∧
        node.isValue = true ∧ Runs (step node []) d first between ∧ first.values ≠ [] ∧
        Runs (assignedValues step pos names (values ++ first.values) (taken + 1) rest) between
          yield d' := by
  cases nodes with
  | nil =>
    rw [assignedValues] at h
    split at h
    · exact absurd h runs_fail
    · next hlen =>
      obtain ⟨rfl, rfl⟩ := runs_pure.1 h
      exact Or.inl ⟨by omega, rfl, rfl⟩
  | cons node rest =>
    rw [assignedValues] at h
    split at h
    · next hlen =>
      split at h
      · next hvalue =>
        obtain ⟨first, between, hfirst, h⟩ := runs_bind.1 h
        split at h
        · exact absurd h runs_fail
        · next hempty =>
          exact Or.inr
            ⟨node, rest, first, between, rfl, hlen, hvalue, hfirst, by simpa using hempty, h⟩
      · exact absurd h runs_fail
    · next hlen =>
      obtain ⟨rfl, rfl⟩ := runs_pure.1 h
      exact Or.inl ⟨by omega, rfl, rfl⟩

theorem runs_assignment {names : List String} {rest : List Node} {yield : Yield}
    (h : Runs (assignment step pos names rest) d yield d') :
    ∃ taken values between, Runs (assignedValues step pos names [] 1 rest) d ⟨taken, values⟩
        between ∧ yield = ⟨taken, []⟩ ∧ d' = between.assignAll (names.zip values) := by
  simp only [assignment, runs_bind, runs_modify, runs_pure] at h
  obtain ⟨⟨taken, values⟩, between, hvalues, _, _, rfl, rfl, rfl⟩ := h
  exact ⟨taken, values, between, hvalues, rfl, rfl⟩

/-- The values of an assignment are those of the first siblings, each apart.  The
siblings are nodes that yield values. -/
theorem exists_front_of_assignedValues {names : List String} {values : List WireId}
    {taken : Nat} {nodes : List Node} {yield : Yield}
    (h : Runs (assignedValues step pos names values taken nodes) d yield d') :
    ∃ front back more, nodes = front ++ back ∧ (∀ node ∈ front, node.isValue = true) ∧
      Runs (valuesEach step front) d more d' ∧
        yield = ⟨taken + front.length, values ++ more.flatten⟩ := by
  induction nodes generalizing d values taken with
  | nil =>
    rcases runs_assignedValues h with ⟨-, rfl, rfl⟩ | ⟨_, _, _, _, heq, -⟩
    · exact ⟨[], [], [], rfl, List.forall_mem_nil _, runs_pure.2 ⟨rfl, rfl⟩, by simp⟩
    · exact absurd heq nofun
  | cons node rest ih =>
    rcases runs_assignedValues h with
      ⟨-, rfl, rfl⟩ | ⟨_, _, first, between, heq, -, hvalue, hnode, -, h⟩
    · exact ⟨[], node :: rest, [], rfl, List.forall_mem_nil _, runs_pure.2 ⟨rfl, rfl⟩, by simp⟩
    · cases heq
      obtain ⟨front, back, more, rfl, hfront, hmore, rfl⟩ := ih h
      refine ⟨node :: front, back, first.values :: more, rfl,
        List.forall_mem_cons.2 ⟨hvalue, hfront⟩,
        runs_valuesEach_cons.2 ⟨first, between, hnode, more, hmore, rfl⟩, ?_⟩
      rw [List.flatten_cons, List.append_assoc, List.length_cons, Nat.add_assoc, Nat.add_comm 1]

/-- An assignment evaluates siblings, and then it assigns their values. -/
theorem runs_assignment_parts {names : List String} {rest : List Node} {yield : Yield}
    (h : Runs (assignment step pos names rest) d yield d') :
    ∃ values mid, Runs (valuesEach step (rest.take (yield.taken - 1))) d values mid ∧
      yield.values = [] ∧ d' = mid.assignAll (names.zip values.flatten) := by
  obtain ⟨taken, all, mid, hall, rfl, rfl⟩ := runs_assignment h
  obtain ⟨front, back, values, rfl, -, hvalues, heq⟩ := exists_front_of_assignedValues hall
  cases heq
  refine ⟨values, mid, ?_, rfl, rfl⟩
  rwa [Nat.add_sub_cancel_left, List.take_left]

/-- The values of a return are those of all siblings, each apart.  Every sibling has a
value, and there are too few values before it. -/
theorem runs_returnedValues {block : Block} {values : List WireId} {taken : Nat}
    {nodes : List Node} {yield : Yield}
    (h : Runs (returnedValues step pos block values taken nodes) d yield d') :
    block.outputs ≤ yield.values.length ∧ ∃ more, Runs (valuesEach step nodes) d more d' ∧
      yield = ⟨taken + nodes.length, values ++ more.flatten⟩ ∧
        ∀ front each back, more = front ++ each :: back →
          each ≠ [] ∧ values.length + front.flatten.length < block.outputs := by
  induction nodes generalizing d values taken with
  | nil =>
    rw [returnedValues] at h
    split at h
    · exact absurd h runs_fail
    · next hlen =>
      obtain ⟨rfl, rfl⟩ := runs_pure.1 h
      exact ⟨Nat.le_of_not_lt hlen, [], runs_pure.2 ⟨rfl, rfl⟩, by simp, by simp⟩
  | cons node rest ih =>
    rw [returnedValues] at h
    split at h
    · next hfew =>
      obtain ⟨first, between, hfirst, h⟩ := runs_bind.1 h
      split at h
      · exact absurd h runs_fail
      · next hempty =>
        obtain ⟨hlen, more, hmore, rfl, heach⟩ := ih h
        refine ⟨hlen, first.values :: more,
          runs_valuesEach_cons.2 ⟨first, between, hfirst, more, hmore, rfl⟩, ?_, ?_⟩
        · rw [List.flatten_cons, List.append_assoc, List.length_cons, Nat.add_assoc,
            Nat.add_comm 1]
        · intro front each back heq
          cases front with
          | nil =>
            cases heq
            exact ⟨by simpa using hempty, hfew⟩
          | cons _ front =>
            cases heq
            have hlast := heach front each back rfl
            rwa [List.length_append, Nat.add_assoc, ← List.length_append,
              ← List.flatten_cons] at hlast
    · exact absurd h runs_fail

theorem runs_blockReturn {rest : List Node} {yield : Yield}
    (h : Runs (blockReturn step pos rest) d yield d') :
    ∃ block, d.scope.enclosing = some block ∧ block.outputs ≤ yield.values.length ∧
      ∃ values, Runs (valuesEach step rest) d values d' ∧
        yield = ⟨1 + rest.length, values.flatten⟩ ∧
          ∀ front each back, values = front ++ each :: back →
            each ≠ [] ∧ front.flatten.length < block.outputs := by
  rw [blockReturn, runs_bind] at h
  obtain ⟨_, _, hget, h⟩ := h
  obtain ⟨rfl, rfl⟩ := runs_get.1 hget
  split at h
  · next block hblock =>
    obtain ⟨hlen, more, hmore, heq, heach⟩ := runs_returnedValues h
    simp only [List.length_nil, Nat.zero_add] at heach
    exact ⟨block, hblock, hlen, more, hmore, heq, heach⟩
  · exact absurd h runs_fail

theorem runs_invokeBuiltin {builtin : Builtin} {args : List Node} {outputs : List WireId}
    (h : Runs (invokeBuiltin step pos builtin args) d outputs d') :
    ∃ arguments between, Runs (valuesEach step args) d arguments between ∧
      builtin.minInputs ≤ arguments.flatten.length ∧
      between.place .builtin builtin.name arguments.flatten builtin.outputs between.scope.id =
        (outputs, d') := by
  rw [invokeBuiltin, runs_bind] at h
  obtain ⟨arguments, between, harguments, h⟩ := h
  dsimp only at h
  split at h
  · exact absurd h runs_fail
  · next hlen =>
    simp only [runs_bind, runs_modify, runs_pure] at h
    obtain ⟨wires, grown, hwires, _, _, rfl, rfl, rfl⟩ := h
    refine ⟨arguments, between, harguments, by omega, ?_⟩
    have hgrown := runs_newWires hwires
    obtain ⟨arena, last, heq⟩ := between.newWires_eq builtin.outputs
    rw [hgrown] at heq
    have hscope : grown.scope = _ := congrArg Draft.scope heq
    simp only [Draft.place, hgrown, hscope]

/-- The values of arguments without their places. -/
theorem map_snd_placed (arguments : List (List WireId)) :
    (placed arguments).map Prod.snd = arguments.flatten := by
  have hplace : ∀ argument : List WireId × Nat,
      (argument.1.map fun wire => (argument.2, wire)).map Prod.snd = argument.1 := by
    intro argument
    rw [List.map_map]
    exact List.map_id _
  rw [placed, List.map_flatMap, funext hplace, List.flatMap_def, List.zipIdx_map_fst]

theorem runs_passInputs_cons {block : Block} {count : Nat} {frame : ContextId}
    {bindings bindings' : Bindings} {place : Nat} {wire : WireId} {param : String}
    {rest : List ((Nat × WireId) × String)} :
    Runs (passInputs block count frame bindings (((place, wire), param) :: rest)) d bindings' d' →
      ∃ label bound between, d.place .blockInput label [wire] 1 frame = ([bound], between) ∧
        Runs (passInputs block count frame (bindings.insert param bound) rest) between bindings'
          d' := by
  intro h
  rw [passInputs, runs_bind] at h
  obtain ⟨bound, between, hgate, h⟩ := h
  exact ⟨_, bound, between, runs_newGate.1 hgate, h⟩

theorem runs_passOutputs_cons {block : Block} {count : Nat} {frame : ContextId} {place : Nat}
    {wire : WireId} {rest outputs : List WireId}
    (h : Runs (passOutputs block count frame place (wire :: rest)) d outputs d') :
    ∃ label output between, d.place .blockOutput label [wire] 1 frame = ([output], between) ∧
      ∃ more, Runs (passOutputs block count frame (place + 1) rest) between more d' ∧
        outputs = output :: more := by
  simp only [passOutputs, runs_bind, runs_pure] at h
  obtain ⟨output, between, hgate, more, last, hmore, rfl, rfl⟩ := h
  exact ⟨_, output, between, runs_newGate.1 hgate, more, hmore, rfl⟩

/-- A node of a body passes values out if it is a return. -/
theorem runs_expandBody_cons {block : Block} {count : Nat} {frame : ContextId} {node : Node}
    {rest : List Node} {values : List WireId}
    (h : Runs (expandBody step block count frame 0 (node :: rest)) d values d') :
    ∃ yield between, Runs (step node rest) d yield between ∧
      ∃ outputs passed, (node.isReturn = true ∧
            Runs (passOutputs block count frame 0 yield.values) between outputs passed ∨
          node.isReturn = false ∧ outputs = [] ∧ passed = between) ∧
        ∃ more, Runs (expandBody step block count frame (yield.taken - 1) rest) passed more d' ∧
          values = outputs ++ more := by
  rw [expandBody, runs_bind] at h
  obtain ⟨yield, between, hnode, h⟩ := h
  refine ⟨yield, between, hnode, ?_⟩
  by_cases hreturn : node.isReturn = true
  · simp only [hreturn, if_true, runs_bind, runs_pure] at h
    obtain ⟨outputs, passed, hpassed, more, last, hmore, rfl, rfl⟩ := h
    exact ⟨outputs, passed, Or.inl ⟨hreturn, hpassed⟩, more, hmore, rfl⟩
  · rw [Bool.not_eq_true] at hreturn
    simp only [hreturn, Bool.false_eq_true, if_false, runs_bind, runs_pure] at h
    obtain ⟨_, _, ⟨rfl, rfl⟩, more, last, hmore, hvalues, rfl⟩ := h
    exact ⟨[], _, Or.inr ⟨hreturn, rfl, rfl⟩, more, hmore, hvalues⟩

/-- Nodes that an earlier one took are left out. -/
theorem expandBody_eq_drop {block : Block} {count : Nat} {frame : ContextId} (skipped : Nat)
    (nodes : List Node) : expandBody step block count frame skipped nodes =
      expandBody step block count frame 0 (nodes.drop skipped) := by
  induction nodes generalizing skipped with
  | nil => cases skipped <;> rfl
  | cons node rest ih =>
    cases skipped with
    | zero => rfl
    | succ skipped => exact ih skipped

/-- Passing inputs leaves the scopes alone, and it does not matter whether the
invocation is noted before or after. -/
theorem runs_passInputs_addContext {block : Block} {count : Nat} {frame : ContextId}
    {bindings bindings' : Bindings} {passed : List ((Nat × WireId) × String)}
    (h : Runs (passInputs block count frame bindings passed) d bindings' d') (context : Context) :
    d'.scopes = d.scopes ∧ d'.contexts = d.contexts ∧ d'.lastFrame = d.lastFrame ∧
      Runs (passInputs block count frame bindings passed) (d.addContext context) bindings'
        (d'.addContext context) := by
  induction passed generalizing bindings d with
  | nil =>
    obtain ⟨rfl, rfl⟩ := runs_pure.1 h
    exact ⟨rfl, rfl, rfl, runs_pure.2 ⟨rfl, rfl⟩⟩
  | cons first rest ih =>
    obtain ⟨⟨place, wire⟩, param⟩ := first
    rw [passInputs, runs_bind] at h ⊢
    obtain ⟨bound, between, hgate, h⟩ := h
    obtain ⟨hscopes, hcontexts, hframe, hrest⟩ := ih h
    have hplace := runs_newGate.1 hgate
    cases hplace
    exact ⟨hscopes, hcontexts, hframe, _, _, runs_newGate.2 rfl, hrest⟩

/-- A run of an invocation of a block, with the drafts that it passes: after the
arguments, after the inputs have been passed, and after the body. -/
structure BlockRun (limit : UInt64) (step : Step) (name : String) (args : List Node)
    (d : Draft) (outputs : List WireId) (d' : Draft) where
  call : Call Draft
  arguments : List (List WireId)
  argued : Draft
  bindings : Bindings
  passed : Draft
  inner : Draft
  hcall : d.call? name = some call
  harguments : Runs (valuesEach step args) call.holder arguments argued
  hdepth : exceeds limit (argued.scopes.length + 1) = false
  hpassed : Runs (passInputs call.block call.count ⟨argued.lastFrame + 1⟩ []
      ((placed arguments).zip call.block.params)) (argued.announce call.block.name) bindings passed
  hbody : Runs (expandBody step call.block call.count ⟨argued.lastFrame + 1⟩ 0 call.block.body)
      (passed.enter ⟨⟨argued.lastFrame + 1⟩, bindings, [], some call.block⟩) outputs inner
  hlast : d' = inner.leave.noteExpanded ⟨⟨argued.lastFrame + 1⟩, call.block, outputs⟩

namespace BlockRun

variable {name : String} {args : List Node} {outputs : List WireId}

/-- The number of the invocation. -/
def frame (run : BlockRun limit step name args d outputs d') : ContextId :=
  ⟨run.argued.lastFrame + 1⟩

/-- The draft in which the invocation has been noted. -/
def announced (run : BlockRun limit step name args d outputs d') : Draft :=
  run.argued.announce run.call.block.name

/-- The draft in which the scope of the invocation has been opened. -/
def entered (run : BlockRun limit step name args d outputs d') : Draft :=
  run.passed.enter ⟨run.frame, run.bindings, [], some run.call.block⟩

end BlockRun

theorem nonempty_blockRun {name : String} {args : List Node} {outputs : List WireId}
    (h : Runs (invokeBlock limit step pos name args) d outputs d') :
    Nonempty (BlockRun limit step name args d outputs d') := by
  rw [invokeBlock, runs_bind] at h
  obtain ⟨_, before, hget, h⟩ := h
  obtain ⟨rfl, rfl⟩ := runs_get.1 hget
  split at h
  · exact absurd h runs_fail
  · next call hcall =>
    simp only [runs_bind, runs_set] at h
    obtain ⟨_, _, rfl, arguments, between, harguments, h⟩ := h
    split at h
    · exact absurd h runs_fail
    · simp only [runs_bind, runs_modifyGet, runs_get] at h
      obtain ⟨frame, _, hframe, bindings, _, hpassed, _, _, ⟨rfl, rfl⟩, h⟩ := h
      cases hframe
      split at h
      · exact absurd h runs_fail
      · next hexceeds =>
        simp only [runs_bind, runs_modify, runs_get, runs_pure] at h
        obtain ⟨_, passed, ⟨rfl, rfl⟩, _, _, rfl, _, _, rfl, _, inner, hbody, _, _, rfl, _, _, rfl,
          rfl, rfl⟩ := h
        obtain ⟨hscopes, -, -, hcommute⟩ := runs_passInputs_addContext hpassed
          ⟨⟨between.lastFrame + 1⟩, call.block.name, between.scopes.length, between.scope.id, []⟩
        have hopen : passed.scopes.length = between.scopes.length := congrArg List.length hscopes
        have hscope : passed.scope = between.scope := (List.cons.inj hscopes).1
        rw [hopen] at hexceeds hbody
        rw [hscope] at hbody
        rw [Bool.not_eq_true] at hexceeds
        exact ⟨⟨call, arguments, between, bindings, _, inner, hcall, harguments, hexceeds,
          hcommute, hbody, rfl⟩⟩

/-! ## Nodes -/

theorem runs_wireOf {name : String} {wire : WireId} (h : Runs (wireOf name) d wire d') :
    (d.lookup? name = some wire ∧ d' = d) ∨
      (d.lookup? name = none ∧ d.declare name = (wire, d')) := by
  rw [wireOf, runs_bind] at h
  obtain ⟨_, _, hget, h⟩ := h
  obtain ⟨rfl, rfl⟩ := runs_get.1 hget
  split at h
  · next bound hbound =>
    obtain ⟨rfl, rfl⟩ := runs_pure.1 h
    exact Or.inl ⟨hbound, rfl⟩
  · next hnone =>
    simp only [runs_bind, runs_newWire, runs_modify, runs_pure] at h
    obtain ⟨_, grown, hgrown, _, _, rfl, rfl, rfl⟩ := h
    refine Or.inr ⟨hnone, ?_⟩
    simp only [Draft.declare, hgrown]

theorem runs_single {x : Expansion (List WireId)} {yield : Yield} :
    Runs (do return .single (← x)) d yield d' ↔
      ∃ values, Runs x d values d' ∧ yield = .single values := by
  simp only [runs_bind, runs_pure]
  constructor
  · rintro ⟨values, between, hvalues, rfl, rfl⟩
    exact ⟨values, hvalues, rfl⟩
  · rintro ⟨values, hvalues, rfl⟩
    exact ⟨values, d', hvalues, rfl, rfl⟩

theorem runs_binary {op : Connective} {lhs : Node} {rhs : Option Node} {rest : List Node}
    {yield : Yield} (h : Runs (expandNode limit step (.binary pos op lhs rhs) rest) d yield d') :
    ∃ a left, Runs (operand step op.kind .left pos (some lhs)) d a left ∧
      ∃ b right, Runs (operand step op.kind .right pos rhs) left b right ∧
        ∃ wire, right.place (connectiveGate op) "" [a, b] 1 right.scope.id = ([wire], d') ∧
          yield = .single [wire] := by
  simp only [expandNode, runs_bind] at h
  obtain ⟨a, left, ha, b, right, hb, hgate⟩ := h
  exact ⟨a, left, ha, b, right, hb, runs_gateHere hgate⟩

theorem runs_negation {rhs : Option Node} {rest : List Node} {yield : Yield}
    (h : Runs (expandNode limit step (.negation pos rhs) rest) d yield d') :
    ∃ a between, Runs (operand step .negation .right pos rhs) d a between ∧
      ∃ wire, between.place .negation "" [a] 1 between.scope.id = ([wire], d') ∧
        yield = .single [wire] := by
  simp only [expandNode, runs_bind] at h
  obtain ⟨a, between, ha, hgate⟩ := h
  exact ⟨a, between, ha, runs_gateHere hgate⟩

/-- A node takes the first siblings.  Unless it is a return, these are nodes that yield
values. -/
theorem exists_taken {node : Node} {rest : List Node} {yield : Yield}
    (h : Runs (expandNode limit step node rest) d yield d') :
    ∃ front back, rest = front ++ back ∧ yield.taken = 1 + front.length ∧
      (node.isReturn = false → ∀ sibling ∈ front, sibling.isValue = true) := by
  have hsingle (htaken : yield.taken = 1) : ∃ front back, rest = front ++ back ∧
      yield.taken = 1 + front.length ∧
        (node.isReturn = false → ∀ sibling ∈ front, sibling.isValue = true) :=
    ⟨[], rest, rfl, htaken, fun _ => List.forall_mem_nil _⟩
  cases node with
  | comment =>
    obtain ⟨rfl, -⟩ := runs_pure.1 h
    exact hsingle rfl
  | binary =>
    obtain ⟨_, _, -, _, _, -, wire, -, rfl⟩ := runs_binary h
    exact hsingle rfl
  | negation =>
    obtain ⟨_, _, -, wire, -, rfl⟩ := runs_negation h
    exact hsingle rfl
  | group | invocation | identifier =>
    simp only [expandNode, runs_bind, runs_pure] at h
    obtain ⟨_, _, -, rfl, -⟩ := h
    exact hsingle rfl
  | block =>
    simp only [expandNode, runs_bind, runs_modify, runs_pure] at h
    obtain ⟨_, _, -, rfl, -⟩ := h
    exact hsingle rfl
  | returns =>
    obtain ⟨_, -, -, values, -, rfl, -⟩ := runs_blockReturn h
    exact ⟨rest, [], (List.append_nil rest).symm, rfl, nofun⟩
  | imports => exact absurd h runs_fail
  | assignment =>
    obtain ⟨taken, values, between, hvalues, rfl, -⟩ := runs_assignment h
    obtain ⟨front, back, more, rfl, hfront, -, heq⟩ := exists_front_of_assignedValues hvalues
    cases heq
    exact ⟨front, back, rfl, rfl, fun _ => hfront⟩
  | literal =>
    obtain ⟨wire, -, rfl⟩ := runs_gateHere h
    exact hsingle rfl

theorem runs_expandAll_cons {values values' : List WireId} {node : Node} {rest : List Node}
    (h : Runs (expandAll step values 0 (node :: rest)) d values' d') :
    ∃ yield between, Runs (step node rest) d yield between ∧
      Runs (expandAll step (if node.isComment then values else yield.values) (yield.taken - 1)
        rest) between values' d' := by
  rw [expandAll, runs_bind] at h
  exact h

theorem expandAll_eq_drop (values : List WireId) (skipped : Nat) (nodes : List Node) :
    expandAll step values skipped nodes = expandAll step values 0 (nodes.drop skipped) := by
  induction nodes generalizing skipped with
  | nil => cases skipped <;> rfl
  | cons node rest ih =>
    cases skipped with
    | zero => rfl
    | succ skipped => exact ih skipped

end Expansion

end Gatework
