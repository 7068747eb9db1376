import Gatework.Proofs.Expansion.Trace

/-!
# Runs inside a run

The expansion of a node expands other nodes: its parts, and the statements of the
block that it invokes.  While one of them is expanded, the values of the parts
before it are held back.

There are six groups.

* `Node.parts` are the nodes that a node evaluates one by one, and `Finish` is what
  is left of the expansion when they have been evaluated (`exists_finish`).
* `Arrives` says that the expansion of some statements comes to one of them.
* A `Turn` is a run of one node.  `Holds` says which turns come directly inside a
  turn, and which wires are held back meanwhile, and `Inside` does so at any depth.
* What a draft notes: which assignments note a rebinding, and what notes nothing
  (`Draft.SameLog`).
* `Brings` says that a turn brings about by itself what a draft notes.  Whatever comes
  about in a turn is brought about by one inside it (`Turn.exists_inside`).
* `Rewrites` says that a turn rebinds a name, and which wires it has still to assign.
  Every rebinding that a turn notes is made by a turn inside it
  (`exists_inside_of_mem`).
-/

namespace Gatework

/-! ## Parts of a node -/

/-- The nodes that a node evaluates one by one.  An assignment and a return evaluate
the siblings that they take. -/
def Node.parts (taken : Nat) (rest : List Node) : Node → List Node
  | .binary _ _ lhs rhs => lhs :: rhs.toList
  | .negation _ rhs => rhs.toList
  | .group _ members => members
  | .invocation _ _ args => args
  | .returns _ | .assignment _ _ => rest.take (taken - 1)
  | .comment .. | .block .. | .imports .. | .identifier .. | .literal .. => []

/-- The draft in which a node evaluates its parts.  An invocation of a block is
counted before its arguments are evaluated. -/
def Draft.counted (node : Node) (d : Draft) : Draft :=
  match node with
  | .invocation _ name _ =>
    match Builtin.ofName? name, d.call? name with
    | none, some call => call.holder
    | _, _ => d
  | _ => d

namespace Expansion

open Draft

variable {limit : UInt64} {step : Step} {pos : Position} {d d' : Draft}

/-- What a node does with the values of its parts.  Assignments and invocations of blocks
are told from the other nodes, since only these lead to rebindings. -/
inductive Finish (limit : UInt64) (step : Step) (d : Draft) (values : List (List WireId))
    (mid : Draft) : Node → Yield → Draft → Prop
  | gather {node : Node} {taken : Nat} :
      Finish limit step d values mid node ⟨taken, values.flatten⟩ mid
  | place {node : Node} {kind : GateKind} {label : String} {count : Nat}
      {outputs : List WireId} {d' : Draft}
      (hplace : mid.place kind label values.flatten count mid.scope.id = (outputs, d'))
      (hkind : kind ≠ .blockOutput) :
      Finish limit step d values mid node (.single outputs) d'
  | define {node : Node} {block : Block} :
      Finish limit step d values mid node (.single []) (mid.define block)
  | name {node : Node} {name : String} {wire : WireId} {d' : Draft}
      (hwire : Runs (wireOf name) mid wire d') :
      Finish limit step d values mid node (.single [wire]) d'
  | assign {pos : Position} {names : List String} {taken : Nat} :
      Finish limit step d values mid (.assignment pos names) ⟨taken, []⟩
        (mid.assignAll (names.zip values.flatten))
  | invoke {pos : Position} {name : String} {args : List Node} {outputs : List WireId} {d' : Draft}
      (hname : Builtin.ofName? name = none) (run : BlockRun limit step name args d outputs d')
      (harguments : run.arguments = values) (hargued : run.argued = mid) :
      Finish limit step d values mid (.invocation pos name args) (.single outputs) d'

/-- A node evaluates its parts, and then it does something with the values. -/
theorem exists_finish {node : Node} {rest : List Node} {yield : Yield}
    (h : Runs (expandNode limit step node rest) d yield d') :
    ∃ values mid, Runs (valuesEach step (node.parts yield.taken rest)) (d.counted node) values mid ∧
      Finish limit step d values mid node yield d' := by
  have hnone : Runs (valuesEach step []) d [] d := runs_pure.2 ⟨rfl, rfl⟩
  cases node with
  | comment pos multiline text =>
    obtain ⟨rfl, rfl⟩ := runs_pure.1 h
    exact ⟨[], d', hnone, .gather⟩
  | binary pos op lhs rhs =>
    obtain ⟨a, left, ha, b, right, hb, wire, hplace, rfl⟩ := runs_binary h
    obtain ⟨node, taken, hlhs, hnode⟩ := runs_operand ha
    cases hlhs
    exact ⟨[[a], [b]], right,
      runs_valuesEach_cons.2 ⟨_, left, hnode, [[b]], runs_valuesEach_operand hb, rfl⟩,
      .place hplace (by cases op <;> decide)⟩
  | negation pos rhs =>
    obtain ⟨a, between, ha, wire, hplace, rfl⟩ := runs_negation h
    exact ⟨[[a]], between, runs_valuesEach_operand ha, .place hplace (by decide)⟩
  | group pos members =>
    simp only [expandNode, runs_bind, runs_pure] at h
    obtain ⟨values, between, hvalues, rfl, rfl⟩ := h
    exact ⟨values, d', hvalues, .gather⟩
  | invocation pos name args =>
    obtain ⟨outputs, houtputs, rfl⟩ := runs_single.1 h
    rw [invoke] at houtputs
    split at houtputs
    · next builtin hname =>
      obtain ⟨values, between, hvalues, -, hplace⟩ := runs_invokeBuiltin houtputs
      refine ⟨values, between, ?_, .place hplace (by decide)⟩
      rw [counted, hname]
      exact hvalues
    · next hname =>
      obtain ⟨run⟩ := nonempty_blockRun houtputs
      refine ⟨run.arguments, run.argued, ?_, .invoke hname run rfl rfl⟩
      rw [counted, hname, run.hcall]
      exact run.harguments
  | block pos name params outputs body =>
    simp only [expandNode, runs_bind, runs_modify, runs_pure] at h
    obtain ⟨_, _, rfl, rfl, rfl⟩ := h
    exact ⟨[], d, hnone, .define⟩
  | returns pos =>
    obtain ⟨block, -, -, values, hvalues, rfl, -⟩ := runs_blockReturn h
    refine ⟨values, d', ?_, .gather⟩
    rw [Node.parts, Nat.add_sub_cancel_left, List.take_length]
    exact hvalues
  | imports pos path => exact absurd h runs_fail
  | assignment pos names =>
    obtain ⟨taken, outputs⟩ := yield
    obtain ⟨values, mid, hvalues, rfl, rfl⟩ := runs_assignment_parts h
    exact ⟨values, mid, hvalues, .assign⟩
  | identifier pos name =>
    simp only [expandNode, runs_bind, runs_pure] at h
    obtain ⟨wire, between, hwire, rfl, rfl⟩ := h
    exact ⟨[], d, hnone, .name hwire⟩
  | literal pos value =>
    obtain ⟨wire, hplace, rfl⟩ := runs_gateHere h
    exact ⟨[], d, hnone, .place hplace (by cases value <;> decide)⟩

/-! ## Statements -/

/-- The expansion of some nodes, one after the other from a draft on, comes to a node,
which others follow, with a draft.  A node leaves out the siblings that it takes. -/
inductive Arrives (step : Step) : List Node → Draft → Node → List Node → Draft → Prop
  | here {node : Node} {rest : List Node} {d : Draft} : Arrives step (node :: rest) d node rest d
  | next {node node' : Node} {rest rest' : List Node} {yield : Yield} {d between d' : Draft}
      (hnode : Runs (step node rest) d yield between)
      (hnext : Arrives step (rest.drop (yield.taken - 1)) between node' rest' d') :
      Arrives step (node :: rest) d node' rest' d'

/-! ## Turns -/

/-- A run of one node. -/
structure Turn (limit : UInt64) where
  fuel : Nat
  node : Node
  rest : List Node
  before : Draft
  yield : Yield
  after : Draft
  runs : Runs (Expansion.step limit fuel node rest) before yield after

namespace Turn

/-- A turn comes directly inside another, which holds some wires meanwhile. -/
inductive Holds : Turn limit → List WireId → Turn limit → Prop
  /-- A part is evaluated while the values of those before it are held. -/
  | part {t u : Turn limit} {front back : List Node} {values : List (List WireId)}
      (hfuel : t.fuel = u.fuel + 1) (hrest : u.rest = [])
      (hparts : t.node.parts t.yield.taken t.rest = front ++ u.node :: back)
      (hvalues : Runs (valuesEach (Expansion.step limit u.fuel) front) (t.before.counted t.node)
        values u.before) : Holds t values.flatten u
  /-- The statements of a body find the arguments in their scope. -/
  | body {t u : Turn limit} {pos : Position} {name : String} {args : List Node}
      (hfuel : t.fuel = u.fuel + 1) (hnode : t.node = .invocation pos name args)
      (run : BlockRun limit (Expansion.step limit u.fuel) name args t.before t.yield.values t.after)
      (harrives : Arrives (Expansion.step limit u.fuel) run.call.block.body run.entered u.node
        u.rest u.before) : Holds t [] u

/-- A turn comes inside another, and some wires are held meanwhile. -/
inductive Inside : Turn limit → List WireId → Turn limit → Prop
  | here {t : Turn limit} : Inside t [] t
  | within {t u v : Turn limit} {held more : List WireId} (hholds : Holds t held u)
      (hinside : Inside u more v) : Inside t (held ++ more) v

end Turn

end Expansion

/-! ## What a draft notes -/

namespace Draft

/-- An assignment to a bound name, as it is noted. -/
structure Rebinds (r : Rebinding) (d : Draft) : Prop where
  named : r.name ≠ discarded
  bound : d.scope.bindings.find? r.name = some r.old
  driven : r.driven = d.gates.any fun gate => gate.outputs.contains r.old

variable {d d' : Draft} {r : Rebinding}

theorem rebinds_of_mem_assign {name : String} {wire : WireId} (hnew : r ∉ d.rebindings)
    (hmem : r ∈ (d.assign name wire).rebindings) :
    d.Rebinds r ∧ (name, wire) = (r.name, r.new) := by
  unfold assign at hmem
  split at hmem
  · exact absurd hmem hnew
  · next hname =>
    split at hmem
    · exact absurd hmem hnew
    · next old hold =>
      have hnoted : r ∈ (d.noteRebinding name old wire).rebindings := by
        dsimp only at hmem
        split at hmem <;> exact hmem
      rcases List.mem_cons.1 hnoted with rfl | hbefore
      · exact ⟨⟨hname, hold, rfl⟩, rfl⟩
      · exact absurd hbefore hnew

/-- One of several assignments notes the rebinding. -/
theorem exists_rebinds_of_mem_assignAll {pairs : List (String × WireId)} (hnew : r ∉ d.rebindings)
    (hmem : r ∈ (d.assignAll pairs).rebindings) :
    ∃ front back, pairs = front ++ (r.name, r.new) :: back ∧ (d.assignAll front).Rebinds r := by
  induction pairs generalizing d with
  | nil => exact absurd hmem hnew
  | cons pair pairs ih =>
    by_cases hfirst : r ∈ (d.assign pair.1 pair.2).rebindings
    · obtain ⟨hrebinds, heq⟩ := rebinds_of_mem_assign hnew hfirst
      exact ⟨[], pairs, congrArg (· :: pairs) heq, hrebinds⟩
    · obtain ⟨front, back, rfl, hrebinds⟩ := ih hfirst hmem
      exact ⟨pair :: front, back, rfl, hrebinds⟩

/-- Two drafts that note the same invocations, rebindings and expanded blocks. -/
structure SameLog (d d' : Draft) : Prop where
  contexts : d'.contexts = d.contexts
  rebindings : d'.rebindings = d.rebindings
  expanded : d'.expanded = d.expanded

theorem SameLog.refl (d : Draft) : SameLog d d := ⟨rfl, rfl, rfl⟩

theorem SameLog.trans {d'' : Draft} (h : SameLog d d') (h' : SameLog d' d'') : SameLog d d'' :=
  ⟨h'.contexts.trans h.contexts, h'.rebindings.trans h.rebindings, h'.expanded.trans h.expanded⟩

theorem sameLog_place {kind : GateKind} {label : String} {inputs outputs : List WireId}
    {count : Nat} {context : ContextId}
    (h : d.place kind label inputs count context = (outputs, d')) : SameLog d d' := by
  obtain ⟨_, _, _, _, heq⟩ := place_eq kind label inputs count context d
  rw [h] at heq
  exact ⟨(congrArg Draft.contexts heq :), (congrArg Draft.rebindings heq :),
    (congrArg Draft.expanded heq :)⟩

theorem sameLog_counted (node : Node) (d : Draft) : SameLog d (d.counted node) := by
  unfold counted
  split
  · split
    · next call _ hcall =>
      obtain ⟨_, _, heq, -⟩ := call?_eq_some hcall
      rw [heq]
      exact ⟨rfl, rfl, rfl⟩
    · exact .refl d
  · exact .refl d

end Draft

namespace Expansion

open Draft

variable {limit : UInt64} {step : Step} {d d' : Draft} {r : Rebinding}

theorem sameLog_define (block : Block) (d : Draft) : SameLog d (d.define block) := ⟨rfl, rfl, rfl⟩

theorem sameLog_wireOf {name : String} {wire : WireId} (h : Runs (wireOf name) d wire d') :
    SameLog d d' := by
  rcases runs_wireOf h with ⟨-, rfl⟩ | ⟨-, hdeclared⟩
  · exact .refl _
  · obtain ⟨-, rfl⟩ := Prod.mk.inj hdeclared
    exact ⟨rfl, rfl, rfl⟩

theorem sameLog_passInputs {block : Block} {count : Nat} {frame : ContextId}
    {bindings bindings' : Bindings} {passed : List ((Nat × WireId) × String)}
    (h : Runs (passInputs block count frame bindings passed) d bindings' d') : SameLog d d' := by
  induction passed generalizing d bindings with
  | nil =>
    obtain ⟨-, rfl⟩ := runs_pure.1 h
    exact .refl _
  | cons first rest ih =>
    obtain ⟨⟨place, wire⟩, param⟩ := first
    obtain ⟨label, bound, between, hplace, h⟩ := runs_passInputs_cons h
    exact (sameLog_place hplace).trans (ih h)

theorem sameLog_passOutputs {block : Block} {count : Nat} {frame : ContextId} {place : Nat}
    {wires outputs : List WireId}
    (h : Runs (passOutputs block count frame place wires) d outputs d') : SameLog d d' := by
  induction wires generalizing d place outputs with
  | nil =>
    obtain ⟨-, rfl⟩ := runs_pure.1 h
    exact .refl _
  | cons wire rest ih =>
    obtain ⟨label, output, between, hplace, more, hmore, rfl⟩ := runs_passOutputs_cons h
    exact (sameLog_place hplace).trans (ih hmore)

namespace BlockRun

variable {name : String} {args : List Node} {outputs : List WireId}
  (run : BlockRun limit step name args d outputs d')

/-- Opening the scope of an invocation that has been noted notes nothing. -/
theorem sameLog_entered : SameLog run.announced run.entered :=
  (sameLog_passInputs run.hpassed).trans ⟨rfl, rfl, rfl⟩

/-- Once its body has been expanded, a block is noted as such. -/
theorem sameLog_last :
    SameLog (run.inner.noteExpanded ⟨run.frame, run.call.block, outputs⟩) d' := by
  obtain ⟨_, _, heq⟩ := run.inner.leave_eq
  have hlast := run.hlast
  rw [heq] at hlast
  exact ⟨(congrArg Draft.contexts hlast :), (congrArg Draft.rebindings hlast :),
    (congrArg Draft.expanded hlast :)⟩

end BlockRun

/-! ## Turns that bring something about -/

/-- The part that brings a property about. -/
theorem exists_part {p : Draft → Prop} {nodes : List Node} {values : List (List WireId)}
    (h : Runs (valuesEach step nodes) d values d') (hbefore : ¬p d) (hafter : p d') :
    ∃ front node back first between yield between', nodes = front ++ node :: back ∧
      Runs (valuesEach step front) d first between ∧ Runs (step node []) between yield between' ∧
        ¬p between ∧ p between' := by
  induction nodes generalizing d values with
  | nil =>
    obtain ⟨-, rfl⟩ := runs_pure.1 h
    exact absurd hafter hbefore
  | cons node rest ih =>
    obtain ⟨yield, between, hnode, more, hmore, rfl⟩ := runs_valuesEach_cons.1 h
    by_cases hfirst : p between
    · exact ⟨[], node, rest, [], d, yield, between, rfl, runs_pure.2 ⟨rfl, rfl⟩, hnode, hbefore,
        hfirst⟩
    · obtain ⟨front, part, back, first, last, last', yield', rfl, hfront, hpart⟩ :=
        ih hmore hfirst
      exact ⟨node :: front, part, back, _, last, last', yield', rfl,
        runs_valuesEach_cons.2 ⟨yield, between, hnode, first, hfront, rfl⟩, hpart⟩

/-- A return takes all siblings that follow. -/
theorem taken_of_isReturn {fuel : Nat} {node : Node} {rest : List Node} {yield : Yield}
    (hreturn : node.isReturn = true) (h : Runs (Expansion.step limit fuel node rest) d yield d') :
    yield.taken = 1 + rest.length := by
  cases fuel with
  | zero => exact absurd h runs_throw
  | succ fuel =>
    cases node with
    | returns pos =>
      obtain ⟨block, -, -, values, -, rfl, -⟩ := runs_blockReturn h
      rfl
    | _ => exact absurd hreturn nofun

/-- The statement of a body that brings a property of the log about. -/
theorem exists_statement {p : Draft → Prop} (hlog : ∀ ⦃d d'⦄, SameLog d d' → p d' → p d)
    {fuel : Nat} {block : Block} {count : Nat} {frame : ContextId} {skipped : Nat}
    {nodes : List Node} {outputs : List WireId}
    (h : Runs (expandBody (Expansion.step limit fuel) block count frame skipped nodes) d outputs d')
    (hbefore : ¬p d) (hafter : p d') :
    ∃ node rest between yield between',
      Arrives (Expansion.step limit fuel) (nodes.drop skipped) d node rest between ∧
        Runs (Expansion.step limit fuel node rest) between yield between' ∧
          ¬p between ∧ p between' := by
  induction nodes generalizing d skipped outputs with
  | nil =>
    rw [expandBody] at h
    obtain ⟨-, rfl⟩ := runs_pure.1 h
    exact absurd hafter hbefore
  | cons node rest ih =>
    cases skipped with
    | succ skipped => exact ih h hbefore
    | zero =>
      obtain ⟨yield, between, hnode, values, passed, hpassed, more, hmore, rfl⟩ :=
        runs_expandBody_cons h
      by_cases hfirst : p between
      · exact ⟨node, rest, d, yield, between, .here, hnode, hbefore, hfirst⟩
      · rcases hpassed with ⟨hreturn, hpassed⟩ | ⟨-, -, rfl⟩
        · rw [taken_of_isReturn hreturn hnode, Nat.add_sub_cancel_left, expandBody_eq_drop,
            List.drop_length] at hmore
          obtain ⟨-, rfl⟩ := runs_pure.1 hmore
          exact absurd (hlog (sameLog_passOutputs hpassed) hafter) hfirst
        · obtain ⟨node', rest', last, yield', last', harrives, hlast⟩ := ih hmore hfirst
          exact ⟨node', rest', last, yield', last', .next hnode harrives, hlast⟩

/-- The node of a description that brings a property about. -/
theorem exists_node {p : Draft → Prop} {values values' : List WireId} {skipped : Nat}
    {nodes : List Node} (h : Runs (expandAll step values skipped nodes) d values' d')
    (hbefore : ¬p d) (hafter : p d') :
    ∃ node rest between yield between', Arrives step (nodes.drop skipped) d node rest between ∧
      Runs (step node rest) between yield between' ∧ ¬p between ∧ p between' := by
  induction nodes generalizing d values skipped with
  | nil =>
    rw [expandAll] at h
    obtain ⟨-, rfl⟩ := runs_pure.1 h
    exact absurd hafter hbefore
  | cons node rest ih =>
    cases skipped with
    | succ skipped => exact ih h hbefore
    | zero =>
      obtain ⟨yield, between, hnode, h⟩ := runs_expandAll_cons h
      by_cases hfirst : p between
      · exact ⟨node, rest, d, yield, between, .here, hnode, hbefore, hfirst⟩
      · obtain ⟨node', rest', last, yield', last', harrives, hlast⟩ := ih h hfirst
        exact ⟨node', rest', last, yield', last', .next hnode harrives, hlast⟩

namespace Turn

/-- A turn brings a property about by itself, and not a turn inside it: by what it
assigns, or by noting an invocation or the block that it has expanded. -/
inductive Brings (p : Draft → Prop) : Turn limit → Prop
  | assign {fuel : Nat} {pos : Position} {names : List String} {rest : List Node}
      {before mid after : Draft} {yield : Yield} {values : List (List WireId)}
      (hruns : Runs (Expansion.step limit (fuel + 1) (.assignment pos names) rest) before yield
        after)
      (hvalues : Runs (valuesEach (Expansion.step limit fuel) (rest.take (yield.taken - 1))) before
        values mid)
      (hbefore : ¬p mid) (hafter : p (mid.assignAll (names.zip values.flatten))) :
      Brings p ⟨fuel + 1, .assignment pos names, rest, before, yield, after, hruns⟩
  | announce {fuel : Nat} {pos : Position} {name : String} {args rest : List Node}
      {before after : Draft} {yield : Yield}
      (hruns : Runs (Expansion.step limit (fuel + 1) (.invocation pos name args) rest) before yield
        after)
      (run : BlockRun limit (Expansion.step limit fuel) name args before yield.values after)
      (hbefore : ¬p run.argued) (hafter : p run.announced) :
      Brings p ⟨fuel + 1, .invocation pos name args, rest, before, yield, after, hruns⟩
  | note {fuel : Nat} {pos : Position} {name : String} {args rest : List Node}
      {before after : Draft} {yield : Yield}
      (hruns : Runs (Expansion.step limit (fuel + 1) (.invocation pos name args) rest) before yield
        after)
      (run : BlockRun limit (Expansion.step limit fuel) name args before yield.values after)
      (hbefore : ¬p run.inner)
      (hafter : p (run.inner.noteExpanded ⟨run.frame, run.call.block, yield.values⟩)) :
      Brings p ⟨fuel + 1, .invocation pos name args, rest, before, yield, after, hruns⟩

/-- A property of the log that comes about in a turn is brought about by a turn inside it. -/
theorem exists_inside {p : Draft → Prop} (hlog : ∀ ⦃d d'⦄, SameLog d d' → p d' → p d)
    (t : Turn limit) (hbefore : ¬p t.before) (hafter : p t.after) :
    ∃ held u, Inside t held u ∧ u.Brings p := by
  obtain ⟨fuel, node, rest, before, yield, after, hruns⟩ := t
  induction fuel generalizing node rest before yield after with
  | zero => exact absurd hruns runs_throw
  | succ fuel ih =>
    obtain ⟨values, mid, hvalues, hfinish⟩ := exists_finish hruns
    by_cases hmid : p mid
    · -- one of the parts brings it about
      obtain ⟨front, part, back, first, last, part', last', hparts, hfront, hpart, hlast, hlast'⟩ :=
        exists_part hvalues (fun hcounted => hbefore (hlog (sameLog_counted ..) hcounted)) hmid
      obtain ⟨held, u, hinside, hbrings⟩ := ih part [] last part' last' hpart hlast hlast'
      exact ⟨_, u, .within (.part rfl rfl hparts hfront) hinside, hbrings⟩
    · cases hfinish with
      | gather => exact absurd hafter hmid
      | place hplace => exact absurd (hlog (sameLog_place hplace) hafter) hmid
      | define => exact absurd (hlog (sameLog_define _ mid) hafter) hmid
      | name hwire => exact absurd (hlog (sameLog_wireOf hwire) hafter) hmid
      | assign => exact ⟨[], _, .here, .assign hruns hvalues hmid hafter⟩
      | invoke hname run harguments hargued =>
        subst hargued
        by_cases hannounced : p run.announced
        · exact ⟨[], _, .here, .announce hruns run hmid hannounced⟩
        · by_cases hinner : p run.inner
          · -- one of the statements of the body brings it about
            obtain ⟨node', rest', last, yield', last', harrives, hnode, hlast, hlast'⟩ :=
              exists_statement hlog run.hbody
                (fun hentered => hannounced (hlog run.sameLog_entered hentered)) hinner
            obtain ⟨held, u, hinside, hbrings⟩ :=
              ih node' rest' last yield' last' hnode hlast hlast'
            exact ⟨_, u, .within (.body rfl rfl run harrives) hinside, hbrings⟩
          · exact ⟨[], _, .here, .note hruns run hinner (hlog run.sameLog_last hafter)⟩

end Turn

/-! ## Turns that rebind -/

namespace Turn

/-- A turn is an assignment that rebinds a name, and then assigns some more wires. -/
inductive Rewrites : Turn limit → Rebinding → List WireId → Prop
  | intro {fuel : Nat} {pos : Position} {names : List String} {rest : List Node}
      {before mid after : Draft} {yield : Yield} {values : List (List WireId)} {r : Rebinding}
      {front back : List (String × WireId)}
      (hruns : Runs (Expansion.step limit (fuel + 1) (.assignment pos names) rest) before yield
        after)
      (hvalues : Runs (valuesEach (Expansion.step limit fuel) (rest.take (yield.taken - 1))) before
        values mid)
      (hpairs : names.zip values.flatten = front ++ (r.name, r.new) :: back)
      (hrebinds : (mid.assignAll front).Rebinds r) :
      Rewrites ⟨fuel + 1, .assignment pos names, rest, before, yield, after, hruns⟩ r
        (back.map Prod.snd)

/-- A rebinding that a turn notes is made by an assignment inside it. -/
theorem exists_inside_of_mem (t : Turn limit) (hnew : r ∉ t.before.rebindings)
    (hmem : r ∈ t.after.rebindings) :
    ∃ held u later, Inside t held u ∧ u.Rewrites r later := by
  obtain ⟨held, u, hinside, hbrings⟩ :=
    exists_inside (p := fun d => r ∈ d.rebindings) (fun _ _ hlog h => hlog.rebindings ▸ h) t
      hnew hmem
  cases hbrings with
  | assign hruns hvalues hbefore hafter =>
    obtain ⟨front, back, hpairs, hrebinds⟩ := exists_rebinds_of_mem_assignAll hbefore hafter
    exact ⟨held, _, _, hinside, .intro hruns hvalues hpairs hrebinds⟩
  | announce _ run hbefore hafter => exact absurd hafter hbefore
  | note _ run hbefore hafter => exact absurd hafter hbefore

end Turn

end Expansion

end Gatework
