import Gatework.Proofs.Expansion.CallTree
import Gatework.Proofs.Forest.NormalForm
import Mathlib.Algebra.Order.BigOperators.Group.List

/-!
# The values of invocations

A block has as many outputs as there are nodes behind the return of its body.  When it
is invoked, these nodes are taken until there are as many values as outputs, and none of
them may be left then.  So each but the last one has one value.  The last one may be a
group or an invocation with more values, and then the invocation has more values than
the block has outputs.

There are six groups.

* The return of a body is the first one, and it is reached (`exists_return`).
* The open scopes stay those of the same blocks (`Draft.SameBlocks`), so a return finds
  the block in whose body it stands.
* `BlockRun.Returns` gives the values of the nodes behind the return, each node apart,
  and `BlockRun.exists_returns` how many they are.
* `Expands` says that the expansion of a description expands a block, with these values.
  Every block that has been expanded is one of them (`exists_expands`).
* `Draft.Passes` says that each value of an invocation is passed out by a gate.
* `values_ofText` is the result for netlists of texts, and `values_surplus` a text with an
  invocation that has more values than its block has outputs.
-/

namespace Gatework

open Draft

/-! ## The return of a body -/

namespace Node

theorem isReturn_of_isValue {node : Node} (h : node.isValue = true) : node.isReturn = false := by
  cases node with
  | returns => cases h
  | _ => rfl

/-- Nodes in front of the first return do not count. -/
theorem valuesAfterReturn_append {front : List Node} (h : ∀ node ∈ front, node.isReturn = false)
    (back : List Node) : valuesAfterReturn (front ++ back) = valuesAfterReturn back := by
  induction front with
  | nil => rfl
  | cons node front ih =>
    rw [List.forall_mem_cons] at h
    cases node with
    | returns => cases h.1
    | _ => exact ih h.2

end Node

namespace Expansion

variable {limit : UInt64} {step : Step} {name : String} {args : List Node}
  {outputs : List WireId} {d d' : Draft}

/-- A node that is no return takes siblings that are none. -/
theorem exists_taken_of_isReturn_eq_false {fuel : Nat} {node : Node} {rest : List Node}
    {yield : Yield} (h : Runs (Expansion.step limit fuel node rest) d yield d')
    (hreturn : node.isReturn = false) :
    ∃ front, (∀ sibling ∈ front, sibling.isReturn = false) ∧
      rest = front ++ rest.drop (yield.taken - 1) := by
  cases fuel with
  | zero => exact absurd h runs_throw
  | succ fuel =>
    obtain ⟨front, back, rfl, htaken, hvalues⟩ := exists_taken h
    refine ⟨front, fun sibling hsibling => ?_, ?_⟩
    · exact Node.isReturn_of_isValue (hvalues hreturn sibling hsibling)
    · rw [htaken, Nat.add_sub_cancel_left, List.drop_left]

/-- The expansion of a body comes to its first return, which passes values out, if there
is one. -/
theorem exists_return {fuel : Nat} {block : Block} {count : Nat} {frame : ContextId}
    {skipped : Nat} {nodes : List Node}
    (h : Runs (expandBody (Expansion.step limit fuel) block count frame skipped nodes) d outputs
      d') :
    (∀ node ∈ nodes.drop skipped, node.isReturn = false) ∧ outputs = [] ∨
      ∃ pos rest before yield after,
        Arrives (Expansion.step limit fuel) (nodes.drop skipped) d (.returns pos) rest before ∧
          rest.length = Node.valuesAfterReturn (nodes.drop skipped) ∧
          Runs (Expansion.step limit fuel (.returns pos) rest) before yield after ∧
          Runs (passOutputs block count frame 0 yield.values) after outputs d' := by
  induction nodes generalizing d skipped outputs with
  | nil =>
    rw [expandBody] at h
    obtain ⟨rfl, -⟩ := runs_pure.1 h
    rw [List.drop_nil]
    exact Or.inl ⟨List.forall_mem_nil _, rfl⟩
  | cons node rest ih =>
    cases skipped with
    | succ skipped => exact ih h
    | zero =>
      rw [List.drop_zero]
      obtain ⟨yield, between, hnode, passed, last, hpassed, more, hmore, rfl⟩ :=
        runs_expandBody_cons h
      rcases hpassed with ⟨hreturn, hpassed⟩ | ⟨hreturn, rfl, rfl⟩
      · rw [taken_of_isReturn hreturn hnode, Nat.add_sub_cancel_left, expandBody_eq_drop,
          List.drop_length] at hmore
        obtain ⟨rfl, rfl⟩ := runs_pure.1 hmore
        rw [List.append_nil]
        cases node with
        | returns pos => exact Or.inr ⟨pos, rest, d, yield, between, .here, rfl, hnode, hpassed⟩
        | _ => cases hreturn
      · obtain ⟨front, hfront, hrest⟩ := exists_taken_of_isReturn_eq_false hnode hreturn
        have hskipped : ∀ sibling ∈ node :: front, sibling.isReturn = false :=
          List.forall_mem_cons.2 ⟨hreturn, hfront⟩
        rcases ih hmore with
          ⟨hnone, rfl⟩ | ⟨pos, rest', before, yield', after, harrives, hlength, h⟩
        · refine Or.inl ⟨?_, rfl⟩
          rw [hrest]
          exact List.forall_mem_append.2 ⟨hskipped, hnone⟩
        · refine Or.inr ⟨pos, rest', before, yield', after, .next hnode harrives, ?_, h⟩
          rw [hlength]
          conv_rhs => rw [hrest]
          exact (Node.valuesAfterReturn_append hskipped _).symm

end Expansion

/-! ## The blocks of open scopes -/

namespace Draft

/-- From one draft to another, the open scopes are those of the same blocks. -/
def SameBlocks (d d' : Draft) : Prop :=
  d'.scopes.map Scope.enclosing = d.scopes.map Scope.enclosing

theorem sameBlocks_place {kind : GateKind} {label : String} {inputs outputs : List WireId}
    {count : Nat} {context : ContextId} {d d' : Draft}
    (h : d.place kind label inputs count context = (outputs, d')) : SameBlocks d d' := by
  obtain ⟨_, _, _, _, heq⟩ := place_eq kind label inputs count context d
  rw [h] at heq
  exact congrArg (fun d => d.scopes.map Scope.enclosing) heq

theorem sameBlocks_counted (node : Node) (d : Draft) : SameBlocks d (d.counted node) := by
  unfold counted
  split
  · split
    · next call _ hcall =>
      obtain ⟨_, _, heq, hscopes, -⟩ := call?_eq_some hcall
      have hblocks := congrArg (List.map Scope.enclosing) hscopes
      rw [List.map_map, List.map_map] at hblocks
      rw [heq]
      exact hblocks
    · rfl
  · rfl

theorem sameBlocks_assignAll (pairs : List (String × WireId)) (d : Draft) :
    SameBlocks d (d.assignAll pairs) := by
  induction pairs generalizing d with
  | nil => rfl
  | cons pair pairs ih =>
    exact (ih _).trans (map_scopes_assign (fun _ _ _ => rfl) (fun _ _ _ => rfl) pair.1 pair.2 d)

end Draft

namespace Expansion

variable {limit : UInt64} {step : Step} {name : String} {args : List Node}
  {outputs : List WireId} {d d' : Draft}

theorem sameBlocks_passOutputs {block : Block} {count : Nat} {frame : ContextId} {place : Nat}
    {wires : List WireId} (h : Runs (passOutputs block count frame place wires) d outputs d') :
    SameBlocks d d' := by
  induction wires generalizing d place outputs with
  | nil =>
    obtain ⟨-, rfl⟩ := runs_pure.1 h
    rfl
  | cons wire rest ih =>
    obtain ⟨label, output, between, hplace, more, hmore, rfl⟩ := runs_passOutputs_cons h
    exact (ih hmore).trans (sameBlocks_place hplace)

/-- The scope of an invocation is opened inside those that were open. -/
theorem BlockRun.enclosing_entered (run : BlockRun limit step name args d outputs d') :
    run.entered.scopes.map Scope.enclosing =
      some run.call.block :: run.argued.scopes.map Scope.enclosing := by
  obtain ⟨hscopes, -⟩ := runs_passInputs_addContext run.hpassed
    ⟨run.frame, run.call.block.name, run.argued.scopes.length, run.argued.scope.id, []⟩
  have hpassed : run.passed.scopes.map Scope.enclosing = run.argued.scopes.map Scope.enclosing :=
    congrArg (List.map Scope.enclosing) hscopes
  rw [← hpassed]
  rfl

/-- The scope of an invocation is closed again. -/
theorem BlockRun.sameBlocks (run : BlockRun limit step name args d outputs d')
    (hbody : SameBlocks run.entered run.inner) : SameBlocks run.argued d' := by
  have houter : run.inner.outer.map Scope.enclosing = run.argued.scopes.map Scope.enclosing :=
    (List.cons.inj (hbody.trans run.enclosing_entered)).2
  have hlast := run.hlast
  unfold leave at hlast
  split at hlast
  · next hnone =>
    rw [hnone] at houter
    cases houter
  · next scope outer hsome =>
    have hscopes : d'.scopes = scope :: outer := (congrArg scopes hlast :)
    rw [SameBlocks, hscopes, ← hsome, houter]

theorem composes_sameBlocks (limit : UInt64) : Composes limit SameBlocks where
  refl := fun _ => rfl
  trans := fun _ _ _ h h' => h'.trans h
  counted := sameBlocks_counted
  place := fun _ _ _ _ _ _ _ _ hplace => sameBlocks_place hplace
  define := fun _ _ => rfl
  name := by
    intro name wire d d' h
    rcases runs_wireOf h with ⟨-, rfl⟩ | ⟨-, hdeclared⟩
    · rfl
    · obtain ⟨-, rfl⟩ := Prod.mk.inj hdeclared
      rfl
  assign := sameBlocks_assignAll
  block := fun _ _ _ _ _ _ run _ _ hbody hpassed =>
    run.sameBlocks ((sameBlocks_passOutputs hpassed).trans hbody)

/-- What composes holds of the drafts with which an expansion comes to its nodes. -/
theorem Composes.arrives {r : Draft → Draft → Prop} (h : Composes limit r) {fuel : Nat}
    {nodes rest : List Node} {node : Node}
    (harrives : Arrives (Expansion.step limit fuel) nodes d node rest d') : r d d' := by
  induction harrives with
  | here => exact h.refl _
  | next hnode _ ih => exact h.trans (h.makes fuel hnode) ih

/-! ## The values behind a return -/

/-- The nodes behind the return of a block have some values, each node apart.  Without a
return there are none. -/
inductive BlockRun.Returns {fuel : Nat}
    (run : BlockRun limit (Expansion.step limit fuel) name args d outputs d') :
    List (List WireId) → Prop
  | nothing (hnone : ∀ node ∈ run.call.block.body, node.isReturn = false) : Returns run []
  | behind {inside : Nat} {pos : Position} {rest : List Node} {before after : Draft}
      {returned : List (List WireId)} (hfuel : fuel = inside + 1)
      (harrives : Arrives (Expansion.step limit fuel) run.call.block.body run.entered
        (.returns pos) rest before)
      (hvalues : Runs (valuesEach (Expansion.step limit inside) rest) before returned after) :
      Returns run returned

theorem length_passOutputs {block : Block} {count : Nat} {frame : ContextId} {place : Nat}
    {wires : List WireId} (h : Runs (passOutputs block count frame place wires) d outputs d') :
    outputs.length = wires.length := by
  induction wires generalizing d place outputs with
  | nil =>
    obtain ⟨rfl, -⟩ := runs_pure.1 h
    rfl
  | cons wire rest ih =>
    obtain ⟨label, output, between, hplace, more, hmore, rfl⟩ := runs_passOutputs_cons h
    exact congrArg (· + 1) (ih hmore)

theorem length_valuesEach {nodes : List Node} {values : List (List WireId)}
    (h : Runs (valuesEach step nodes) d values d') : values.length = nodes.length := by
  induction nodes generalizing d values with
  | nil =>
    obtain ⟨rfl, -⟩ := runs_pure.1 h
    rfl
  | cons node rest ih =>
    obtain ⟨yield, between, hnode, more, hmore, rfl⟩ := runs_valuesEach_cons.1 h
    exact congrArg (· + 1) (ih hmore)

/-- If each of some nodes has a value, and there are too few values before it, then there
are as many values as nodes just if the last node has one. -/
theorem length_flatten_eq_iff {α : Type} {returned : List (List α)}
    (heach : ∀ front each back, returned = front ++ each :: back →
      each ≠ [] ∧ front.flatten.length < returned.length) :
    returned.length ≤ returned.flatten.length ∧
      (returned.flatten.length = returned.length ↔
        ∀ last ∈ returned.getLast?, last.length = 1) := by
  rcases List.eq_nil_or_concat returned with rfl | ⟨front, last, rfl⟩
  · simp
  · rw [List.concat_eq_append] at heach ⊢
    obtain ⟨hlast, hfew⟩ := heach front last [] rfl
    have hpos : 0 < last.length := List.length_pos_iff.2 hlast
    have hfront : front.length ≤ front.flatten.length := by
      rw [List.length_flatten]
      refine (Nat.le_of_eq (List.length_map _).symm).trans
        (List.length_le_sum_of_one_le _ fun count hcount => ?_)
      obtain ⟨each, hmem, rfl⟩ := List.mem_map.1 hcount
      obtain ⟨before, after, rfl⟩ := List.append_of_mem hmem
      have hsplit : (before ++ each :: after) ++ [last] = before ++ each :: (after ++ [last]) := by
        simp
      exact List.length_pos_iff.2 (heach before each (after ++ [last]) hsplit).1
    rw [List.length_append, List.length_singleton] at hfew ⊢
    rw [List.flatten_append, List.flatten_singleton, List.length_append, List.getLast?_concat]
    simp only [Option.mem_def, Option.some.injEq, forall_eq']
    omega

/-- An invocation has as many values as its block has outputs just if the last node behind
the return has one value. -/
theorem BlockRun.exists_returns {fuel : Nat}
    (run : BlockRun limit (Expansion.step limit fuel) name args d outputs d')
    (hblock : run.call.block.outputs = Node.valuesAfterReturn run.call.block.body) :
    ∃ returned, run.Returns returned ∧ run.call.block.outputs ≤ outputs.length ∧
      (outputs.length = run.call.block.outputs ↔
        ∀ last ∈ returned.getLast?, last.length = 1) := by
  have hreturn := exists_return run.hbody
  rw [List.drop_zero] at hreturn
  rcases hreturn with ⟨hnone, rfl⟩ |
    ⟨pos, rest, before, yield, after, harrives, hrest, hstep, hpassed⟩
  · have hzero : run.call.block.outputs = 0 := by
      have hvalues := Node.valuesAfterReturn_append hnone []
      rw [List.append_nil] at hvalues
      rw [hblock, hvalues]
      rfl
    rw [hzero]
    exact ⟨[], .nothing hnone, Nat.le_refl 0, by simp⟩
  · cases fuel with
    | zero => exact absurd hstep runs_throw
    | succ fuel =>
      obtain ⟨block, henclosing, -, returned, hvalues, rfl, heach⟩ := runs_blockReturn hstep
      -- the return stands in the body of the block that is expanded
      have hsame := ((composes_sameBlocks limit).arrives harrives).trans run.enclosing_entered
      have hscope : before.scope.enclosing = some run.call.block := (List.cons.inj hsame).1
      cases henclosing.symm.trans hscope
      have hlength : returned.length = run.call.block.outputs := by
        rw [length_valuesEach hvalues, hrest, hblock]
      rw [← hlength] at heach ⊢
      rw [length_passOutputs hpassed]
      exact ⟨returned, .behind rfl harrives hvalues, length_flatten_eq_iff heach⟩

/-! ## Blocks that a description expands -/

/-- A turn expands a block, and the nodes behind the block's return have some values. -/
inductive Turn.Expands : Turn limit → Expanded → List (List WireId) → Prop
  | intro {fuel : Nat} {pos : Position} {name : String} {args rest : List Node}
      {before after : Draft} {yield : Yield} {returned : List (List WireId)}
      (hruns : Runs (Expansion.step limit (fuel + 1) (.invocation pos name args) rest) before yield
        after)
      (run : BlockRun limit (Expansion.step limit fuel) name args before yield.values after)
      (hreturns : run.Returns returned) :
      Expands ⟨fuel + 1, .invocation pos name args, rest, before, yield, after, hruns⟩
        ⟨run.frame, run.call.block, yield.values⟩ returned

/-- The expansion of a description expands a block, and the nodes behind the block's return
have some values. -/
inductive Expands (limit : UInt64) (nodes : List Node) (e : Expanded)
    (returned : List (List WireId)) : Prop
  | intro {t u : Turn limit} {held : List WireId} (hfuel : t.fuel = nestingBound limit nodes)
      (harrives : Arrives (Expansion.step limit t.fuel) nodes .empty t.node t.rest t.before)
      (hinside : t.Inside held u) (hexpands : u.Expands e returned)

theorem expanded_assignAll (pairs : List (String × WireId)) (d : Draft) :
    (d.assignAll pairs).expanded = d.expanded := by
  induction pairs generalizing d with
  | nil => rfl
  | cons pair pairs ih =>
    obtain ⟨_, _, _, _, heq⟩ := assign_eq pair.1 pair.2 d
    exact (ih _).trans (congrArg Draft.expanded heq :)

/-- Every block that has been expanded has been so in some turn. -/
theorem exists_expands {nodes : List Node} {e : Expanded}
    (h : Draft.ofForest limit nodes = .ok (outputs, d)) (he : e ∈ d.expanded)
    (hblock : e.block.outputs = Node.valuesAfterReturn e.block.body) :
    ∃ returned, Expands limit nodes e returned ∧ e.block.outputs ≤ e.outputs.length ∧
      (e.outputs.length = e.block.outputs ↔ ∀ last ∈ returned.getLast?, last.length = 1) := by
  have hruns : Runs (expandAll (Expansion.step limit (nestingBound limit nodes)) [] 0 nodes) .empty
      outputs d := h
  obtain ⟨node, rest, before, yield, after, harrives, hnode, hnew, hmem⟩ :=
    exists_node (p := fun d => e ∈ d.expanded) hruns List.not_mem_nil he
  obtain ⟨held, u, hinside, hbrings⟩ :=
    Turn.exists_inside (p := fun d => e ∈ d.expanded) (fun _ _ hlog h => hlog.expanded ▸ h)
      ⟨_, node, rest, before, yield, after, hnode⟩ hnew hmem
  cases hbrings with
  | assign _ _ hbefore hafter =>
    rw [expanded_assignAll] at hafter
    exact absurd hafter hbefore
  | announce _ run hbefore hafter => exact absurd hafter hbefore
  | note hstep run hbefore hafter =>
    rcases List.mem_cons.1 hafter with rfl | hold
    · obtain ⟨returned, hreturns, hvalues⟩ := run.exists_returns hblock
      exact ⟨returned, .intro rfl harrives hinside (.intro hstep run hreturns), hvalues⟩
    · exact absurd hold hbefore

end Expansion

/-! ## The gates that pass values out -/

namespace Draft

/-- The invocations out of which gates pass values, once for each gate, latest first. -/
def passedOut (d : Draft) : List ContextId :=
  (d.gates.filter fun gate => gate.kind = .blockOutput).map Gate.context

/-- The invocations of expanded blocks, once for each of their values, latest first. -/
def given (d : Draft) : List ContextId :=
  d.expanded.flatMap fun e => List.replicate e.outputs.length e.frame

/-- From one draft to another, gates pass out as many values as expanded blocks have. -/
def Passes (d d' : Draft) : Prop :=
  ∃ frames, d'.passedOut = frames ++ d.passedOut ∧ d'.given = frames ++ d.given

variable {d d' d'' : Draft}

theorem Passes.of_eq (hgates : d'.passedOut = d.passedOut) (hexpanded : d'.expanded = d.expanded) :
    Passes d d' := by
  refine ⟨[], hgates, ?_⟩
  rw [given, hexpanded]
  rfl

theorem Passes.trans (h : Passes d d') (h' : Passes d' d'') : Passes d d'' := by
  obtain ⟨frames, hpassed, hgiven⟩ := h
  obtain ⟨frames', hpassed', hgiven'⟩ := h'
  refine ⟨frames' ++ frames, ?_, ?_⟩
  · rw [hpassed', hpassed, List.append_assoc]
  · rw [hgiven', hgiven, List.append_assoc]

theorem passedOut_place {kind : GateKind} {label : String} {inputs outputs : List WireId}
    {count : Nat} {context : ContextId}
    (h : d.place kind label inputs count context = (outputs, d')) :
    d'.passedOut = if kind = .blockOutput then context :: d.passedOut else d.passedOut := by
  obtain ⟨hgates, -⟩ := gates_place kind label inputs count context d
  rw [h] at hgates
  rw [passedOut, hgates, List.filter_cons]
  simp only [decide_eq_true_eq]
  split <;> rfl

theorem passedOut_assign (name : String) (wire : WireId) (d : Draft) :
    (d.assign name wire).passedOut = d.passedOut := by
  obtain ⟨-, hgates | ⟨old, hgates⟩⟩ := gates_assign name wire d
  · rw [passedOut, hgates]
    rfl
  · rw [passedOut, hgates, List.filter_map, List.map_map]
    rfl

theorem passes_assignAll (pairs : List (String × WireId)) (d : Draft) :
    Passes d (d.assignAll pairs) := by
  induction pairs generalizing d with
  | nil => exact .of_eq rfl rfl
  | cons pair pairs ih =>
    obtain ⟨_, _, _, _, heq⟩ := assign_eq pair.1 pair.2 d
    exact .trans (.of_eq (passedOut_assign pair.1 pair.2 d) (congrArg Draft.expanded heq :)) (ih _)

end Draft

namespace Expansion

variable {limit : UInt64} {step : Step} {name : String} {args : List Node}
  {outputs : List WireId} {d d' : Draft}

theorem passedOut_passInputs {block : Block} {count : Nat} {frame : ContextId}
    {bindings bindings' : Bindings} {passed : List ((Nat × WireId) × String)}
    (h : Runs (passInputs block count frame bindings passed) d bindings' d') :
    d'.passedOut = d.passedOut := by
  induction passed generalizing d bindings with
  | nil =>
    obtain ⟨-, rfl⟩ := runs_pure.1 h
    rfl
  | cons first rest ih =>
    obtain ⟨⟨place, wire⟩, param⟩ := first
    obtain ⟨label, bound, between, hplace, h⟩ := runs_passInputs_cons h
    exact (ih h).trans (passedOut_place hplace)

theorem passedOut_passOutputs {block : Block} {count : Nat} {frame : ContextId} {place : Nat}
    {wires : List WireId} (h : Runs (passOutputs block count frame place wires) d outputs d') :
    d'.passedOut = List.replicate outputs.length frame ++ d.passedOut := by
  induction wires generalizing d place outputs with
  | nil =>
    obtain ⟨rfl, rfl⟩ := runs_pure.1 h
    rfl
  | cons wire rest ih =>
    obtain ⟨label, output, between, hplace, more, hmore, rfl⟩ := runs_passOutputs_cons h
    rw [ih hmore, passedOut_place hplace, if_pos rfl, List.length_cons, List.replicate_succ',
      List.append_assoc]
    rfl

/-- The values of an invocation are passed out when its body has been expanded. -/
theorem BlockRun.passes (run : BlockRun limit step name args d outputs d') {wires : List WireId}
    {returning : Draft} (hbody : Passes run.entered returning)
    (hpassed : Runs (passOutputs run.call.block run.call.count run.frame 0 wires) returning outputs
      run.inner) : Passes run.argued d' := by
  have hentered : run.entered.passedOut = run.argued.passedOut :=
    (passedOut_passInputs run.hpassed :)
  have hexpanded : run.entered.given = run.argued.given := by
    rw [given, run.sameLog_entered.expanded]
    rfl
  obtain ⟨frames, hframes, hgiven⟩ := hbody
  have hinner : run.inner.given = returning.given := by
    rw [given, (sameLog_passOutputs hpassed).expanded]
    rfl
  obtain ⟨_, _, hleave⟩ := run.inner.leave_eq
  have hlast := run.hlast
  rw [hleave] at hlast
  have hgates : d'.passedOut = run.inner.passedOut := (congrArg Draft.passedOut hlast :)
  have hnoted : d'.given = List.replicate outputs.length run.frame ++ run.inner.given :=
    (congrArg Draft.given hlast :)
  refine ⟨List.replicate outputs.length run.frame ++ frames, ?_, ?_⟩
  · rw [hgates, passedOut_passOutputs hpassed, hframes, hentered, List.append_assoc]
  · rw [hnoted, hinner, hgiven, hexpanded, List.append_assoc]

theorem composes_passes (limit : UInt64) : Composes limit Passes where
  refl := fun _ => .of_eq rfl rfl
  trans := fun _ _ _ => Passes.trans
  counted := by
    intro node d
    refine .of_eq ?_ (sameLog_counted node d).expanded
    unfold counted
    split
    · split
      · next call _ hcall =>
        obtain ⟨_, _, heq, -⟩ := call?_eq_some hcall
        rw [heq]
        rfl
      · rfl
    · rfl
  place := fun _ _ _ _ _ _ _ hkind hplace =>
    .of_eq ((passedOut_place hplace).trans (if_neg hkind)) (sameLog_place hplace).expanded
  define := fun _ _ => .of_eq rfl rfl
  name := by
    intro name wire d d' h
    refine .of_eq ?_ (sameLog_wireOf h).expanded
    rcases runs_wireOf h with ⟨-, rfl⟩ | ⟨-, hdeclared⟩
    · rfl
    · obtain ⟨-, rfl⟩ := Prod.mk.inj hdeclared
      rfl
  assign := passes_assignAll
  block := fun _ _ _ _ _ _ run _ _ hbody hpassed => run.passes hbody hpassed

end Expansion

/-- In the end the gates pass out just the values of the expanded blocks. -/
theorem Draft.passedOut_of_ofForest {limit : UInt64} {nodes : List Node} {outputs : List WireId}
    {d : Draft} (h : Draft.ofForest limit nodes = .ok (outputs, d)) : d.passedOut = d.given := by
  have hpasses : Passes empty d := (Expansion.composes_passes limit).expandAll h
  obtain ⟨frames, hpassed, hgiven⟩ := hpasses
  rw [hpassed, hgiven]
  rfl

/-- In the end there is one expanded block for each noted invocation. -/
theorem Draft.perm_frames_of_ofForest {limit : UInt64} {nodes : List Node}
    {outputs : List WireId} {d : Draft} (h : Draft.ofForest limit nodes = .ok (outputs, d)) :
    (d.contexts.map Context.id).Perm (d.expanded.map Expanded.frame) := by
  have hperm := (perm_finished_of_ofForest h).map Prod.fst
  rw [noted, finished, List.map_map, List.map_map] at hperm
  exact hperm

/-- With fewer invocations than numbers, each has been expanded under a number of its own. -/
theorem Draft.nodup_frames_of_ofForest {limit : UInt64} {nodes : List Node}
    {outputs : List WireId} {d : Draft} (h : Draft.ofForest limit nodes = .ok (outputs, d))
    (hsmall : d.contexts.length < UInt32.size) : (d.expanded.map Expanded.frame).Nodup := by
  have hreaches := (leads_ofForest (Node.allIn_true nodes) h).reaches
  have hnodup := (Netlist.recorded_of_reaches hreaches hsmall outputs).nodup
  have hreverse : (d.contexts.reverse.map Context.id).Perm (d.contexts.map Context.id) :=
    (List.reverse_perm d.contexts).map Context.id
  exact (hreverse.trans (perm_frames_of_ofForest h)).nodup hnodup

/-- A key that is repeated for one entry of a list only is there as often as that entry
says. -/
theorem count_flatMap_replicate {α κ : Type} [DecidableEq κ] (key : α → κ) (size : α → Nat)
    {entries : List α} (hnodup : (entries.map key).Nodup) {entry : α} (hentry : entry ∈ entries) :
    (entries.flatMap fun entry => List.replicate (size entry) (key entry)).count (key entry) =
      size entry := by
  obtain ⟨front, back, rfl⟩ := List.append_of_mem hentry
  have hother {others : List α} (hkey : key entry ∉ others.map key) :
      (others.flatMap fun entry => List.replicate (size entry) (key entry)).count (key entry) =
        0 := by
    refine List.count_eq_zero.2 fun hmem => hkey ?_
    obtain ⟨other, hother, hsame⟩ := List.mem_flatMap.1 hmem
    rw [List.eq_of_mem_replicate hsame]
    exact List.mem_map_of_mem hother
  rw [List.map_append, List.map_cons] at hnodup
  obtain ⟨-, hback, hfront⟩ := List.nodup_append.1 hnodup
  have hnotFront : key entry ∉ front.map key := fun hmem =>
    hfront _ hmem _ List.mem_cons_self rfl
  rw [List.flatMap_append, List.flatMap_cons, List.count_append, List.count_append,
    hother hnotFront, hother (List.nodup_cons.1 hback).1, List.count_replicate_self,
    Nat.zero_add, Nat.add_zero]

/-! ## Netlists of texts -/

/-- The blocks of a text have as many outputs as there are nodes behind their returns. -/
theorem outputs_eq_of_ofText {origin : Forest.Origin} {text : String} {nodes : List Node}
    {limit : UInt64} {outputs : List WireId} {d : Draft}
    (hnodes : Forest.ofText origin text = .ok nodes)
    (h : Draft.ofForest limit nodes = .ok (outputs, d)) :
    ∀ e ∈ d.expanded, e.block.outputs = Node.valuesAfterReturn e.block.body := by
  have hnormal : Forest.isNormal nodes = true :=
    Forest.isNormal_of_ofTextWith (fun _ _ => Forest.spliceable_of_importCollection) hnodes
  have hreaches := (leads_ofForest (Forest.isNormal_iff.1 hnormal).2.2 h).reaches
  intro e he
  obtain ⟨pos, hall⟩ := hreaches.all_of_mem_expanded e he
  have hblock := Node.of_all hall
  rw [Node.isNormal, Bool.and_eq_true, beq_iff_eq] at hblock
  rw [hblock.1, Node.valuesAfterReturn_eq]

namespace Netlist

open Expansion

/-- With fewer invocations than numbers, the gates that pass values out of an invocation
are as many as its values. -/
theorem countP_blockOutput {limit : UInt64} {nodes : List Node} {outputs : List WireId} {d : Draft}
    (h : Draft.ofForest limit nodes = .ok (outputs, d)) (hsmall : d.contexts.length < UInt32.size)
    {e : Expanded} (he : e ∈ d.expanded) :
    (d.gates.countP fun gate => gate.kind = .blockOutput ∧ gate.context = e.frame) =
      e.outputs.length := by
  have hcount := count_flatMap_replicate Expanded.frame (fun e => e.outputs.length)
    (nodup_frames_of_ofForest h hsmall) he
  rw [← given, ← passedOut_of_ofForest h, passedOut, List.count_eq_countP, List.countP_map,
    List.countP_filter] at hcount
  rw [← hcount]
  refine List.countP_congr fun gate _ => ?_
  simp [and_comm]

/-- In the netlist of a text there is a context for each block that has been expanded.  The
invocation has as many values as the block has outputs just if the last node behind the
block's return has one value, and otherwise it has more.  Each value is passed out by a gate
of its own. -/
theorem values_ofText {origin : Forest.Origin} {text : String} {nodes : List Node}
    {limit : UInt64} {n : Netlist} (hnodes : Forest.ofText origin text = .ok nodes)
    (hn : ofForest limit nodes = .ok n) :
    ∃ outputs d, Draft.ofForest limit nodes = .ok (outputs, d) ∧
      (n.contexts.map Context.id).Perm (d.expanded.map Expanded.frame) ∧ ∀ e ∈ d.expanded,
        e.block.outputs = Node.valuesAfterReturn e.block.body ∧
        (∃ returned, Expands limit nodes e returned ∧ e.block.outputs ≤ e.outputs.length ∧
          (e.outputs.length = e.block.outputs ↔ ∀ last ∈ returned.getLast?, last.length = 1)) ∧
        (n.contexts.length < UInt32.size →
          (n.gates.countP fun gate => gate.kind = .blockOutput ∧ gate.context = e.frame) =
            e.outputs.length) := by
  obtain ⟨outputs, d, hd, rfl⟩ := eq_linkContexts_of_ofForest hn
  have hids : { d.netlist with outputs }.linkContexts.contexts.map Context.id =
      d.contexts.reverse.map Context.id := map_id_linkContexts { d.netlist with outputs }
  have hgates : { d.netlist with outputs }.linkContexts.gates = d.gates.reverse := rfl
  have hframes : (d.contexts.reverse.map Context.id).Perm (d.expanded.map Expanded.frame) :=
    ((List.reverse_perm d.contexts).map Context.id).trans (perm_frames_of_ofForest hd)
  refine ⟨outputs, d, hd, hids ▸ hframes, fun e he => ?_⟩
  have hblock := outputs_eq_of_ofText hnodes hd e he
  refine ⟨hblock, exists_expands hd he hblock, fun hsmall => ?_⟩
  have hlength := congrArg List.length hids
  rw [List.length_map, List.length_map, List.length_reverse] at hlength
  rw [hgates, List.countP_reverse]
  exact countP_blockOutput hd (hlength ▸ hsmall) he

/-- A block with two outputs, which is invoked twice. -/
def pairs : String :=
  "block pair(a b) \x7b return (not a) b \x7d let c d = pair(0 1) pair(c d)"

/-- Each of the two invocations has two values. -/
theorem values_ofText_pairs : ∃ nodes n, Forest.ofText .client pairs = .ok nodes ∧
    ofForest defaultLimit nodes = .ok n ∧ n.contexts.length = 2 ∧
    ∃ outputs d, Draft.ofForest defaultLimit nodes = .ok (outputs, d) ∧
      (n.contexts.map Context.id).Perm (d.expanded.map Expanded.frame) ∧ ∀ e ∈ d.expanded,
        e.block.outputs = Node.valuesAfterReturn e.block.body ∧
        (∃ returned, Expands defaultLimit nodes e returned ∧
          e.block.outputs ≤ e.outputs.length ∧
          (e.outputs.length = e.block.outputs ↔ ∀ last ∈ returned.getLast?, last.length = 1)) ∧
        (n.contexts.length < UInt32.size →
          (n.gates.countP fun gate => gate.kind = .blockOutput ∧ gate.context = e.frame) =
            e.outputs.length) := by
  have hbuilt : (Forest.ofText .client pairs).toOption.map (fun nodes =>
      (ofForest defaultLimit nodes).toOption.map fun n => n.contexts.length) = some (some 2) := by
    decide +kernel
  cases hnodes : Forest.ofText .client pairs with
  | error fault =>
    rw [hnodes] at hbuilt
    cases hbuilt
  | ok nodes =>
    rw [hnodes] at hbuilt
    obtain ⟨n, hn, hcontexts⟩ := exists_of_toOption_map (Option.some.inj hbuilt)
    exact ⟨nodes, n, rfl, hn, hcontexts, values_ofText hnodes hn⟩

/-- A block with two outputs, whose last node behind the return has two values. -/
def surplus : String := "block f(a b) \x7b return (a) (b a) \x7d f(1 0)"

/-- The invocation has three values, and three gates pass them out. -/
theorem values_surplus : ∃ nodes n, Forest.ofText .client surplus = .ok nodes ∧
    ofForest defaultLimit nodes = .ok n ∧
    (n.gates.filter fun gate => gate.kind = .blockOutput).map Gate.context = [⟨1⟩, ⟨1⟩, ⟨1⟩] ∧
    ∃ outputs d, Draft.ofForest defaultLimit nodes = .ok (outputs, d) ∧
      d.expanded.map (fun e => (e.frame, e.block.outputs, e.outputs.length)) = [(⟨1⟩, 2, 3)] := by
  have hbuilt : (Forest.ofText .client surplus).toOption.map (fun nodes =>
      (ofForest defaultLimit nodes).toOption.map fun n =>
        (n.gates.filter fun gate => gate.kind = .blockOutput).map Gate.context) =
          some (some [⟨1⟩, ⟨1⟩, ⟨1⟩]) := by
    decide +kernel
  have hexpanded : (Forest.ofText .client surplus).toOption.map (fun nodes =>
      (Draft.ofForest defaultLimit nodes).toOption.map fun result =>
        result.2.expanded.map fun e => (e.frame, e.block.outputs, e.outputs.length)) =
          some (some [(⟨1⟩, 2, 3)]) := by
    decide +kernel
  cases hnodes : Forest.ofText .client surplus with
  | error fault =>
    rw [hnodes] at hbuilt
    cases hbuilt
  | ok nodes =>
    rw [hnodes] at hbuilt hexpanded
    obtain ⟨n, hn, hgates⟩ := exists_of_toOption_map (Option.some.inj hbuilt)
    obtain ⟨outputs, d, hd, -⟩ := eq_linkContexts_of_ofForest hn
    have hnoted : (Draft.ofForest defaultLimit nodes).toOption.map _ = _ :=
      Option.some.inj hexpanded
    rw [hd] at hnoted
    exact ⟨nodes, n, rfl, hn, hgates, outputs, d, hd, Option.some.inj hnoted⟩

end Netlist

end Gatework
