import Gatework.Proofs.Expansion.Trace
import Gatework.Proofs.Trees.Trimming
import Mathlib.Data.List.Forall2

/-!
# Comments and positions

A description that has lost some of its comments, and whose nodes have other positions, has
the netlist that it had before.  Only the labels of the gates that pass inputs can differ,
since they tell the places of arguments, and a comment among arguments has a place.

There are six groups.

* `Gate.SameUpToPlace` and `Netlist.SameUpToPlaces` say what stays the same.
* Drafts of the two descriptions (`Draft.Trims`).  Their blocks differ as the descriptions
  do, and each change of a draft keeps the relation.
* `Follows` compares two computations, of which the first one runs.
* The pieces of the expansion.  Steps that keep pace (`KeepPace`) make pieces that do.
* Invocations.
* Nodes, the recursion, and whole descriptions (`ofForest_of_trimsAll`).
-/

namespace Gatework

/-! ## Gates and netlists -/

/-- The label of a gate that passes an input into an invocation of a block.  The place is
that of the argument. -/
def Gate.inputLabel (place : Nat) (block : String) (count : Nat) : String :=
  s!"Input {place} into block {block} invocation {count}"

/-- Two gates that differ in their labels at most, and in these by the place of an argument
only. -/
structure Gate.SameUpToPlace (gate gate' : Gate) : Prop where
  rest : gate' = { gate with label := gate'.label }
  label : gate'.label = gate.label ∨ gate.kind = .blockInput ∧ ∃ place place' block count,
    gate.label = inputLabel place block count ∧ gate'.label = inputLabel place' block count

/-- Two netlists that differ in the labels of their gates at most, and in these by the places
of arguments only. -/
structure Netlist.SameUpToPlaces (n n' : Netlist) : Prop where
  wires : n'.wires = n.wires
  gates : List.Forall₂ Gate.SameUpToPlace n.gates n'.gates
  contexts : n'.contexts = n.contexts
  outputs : n'.outputs = n.outputs

theorem Gate.SameUpToPlace.rewire {gate gate' : Gate} (h : gate.SameUpToPlace gate')
    (old new : WireId) : (gate.rewire old new).SameUpToPlace (gate'.rewire old new) := by
  obtain ⟨hrest, hlabel⟩ := h
  exact ⟨by rw [hrest]; rfl, hlabel⟩

/-! ## Drafts -/

/-- Blocks whose bodies differ in comments and positions only. -/
structure Block.Trims (block block' : Block) : Prop where
  name : block'.name = block.name
  params : block'.params = block.params
  outputs : block'.outputs = block.outputs
  body : Node.TrimsAll block.body block'.body

/-- Definitions that have been called alike, of such blocks. -/
structure Definition.Trims (definition definition' : Definition) : Prop where
  block : definition.block.Trims definition'.block
  invocations : definition'.invocations = definition.invocations

/-- Scopes that bind the same names, and define such blocks. -/
structure Scope.Trims (s s' : Scope) : Prop where
  id : s'.id = s.id
  bindings : s'.bindings = s.bindings
  blocks : List.Forall₂ Definition.Trims s.blocks s'.blocks
  enclosing : Option.Rel Block.Trims s.enclosing s'.enclosing

/-- Calls of such blocks, whose holders are related. -/
structure Call.Trims {α : Type} (r : α → α → Prop) (call call' : Call α) : Prop where
  block : call.block.Trims call'.block
  count : call'.count = call.count
  holder : r call.holder call'.holder

/-- Drafts of descriptions that differ in comments and positions only. -/
structure Draft.Trims (d d' : Draft) : Prop where
  wires : d'.wires = d.wires
  gates : List.Forall₂ Gate.SameUpToPlace d.gates d'.gates
  contexts : d'.contexts = d.contexts
  scope : d.scope.Trims d'.scope
  outer : List.Forall₂ Scope.Trims d.outer d'.outer
  lastWire : d'.lastWire = d.lastWire
  lastGate : d'.lastGate = d.lastGate
  lastFrame : d'.lastFrame = d.lastFrame

theorem Call.Trims.map {α β : Type} {r : α → α → Prop} {s : β → β → Prop} {f g : α → β}
    (h : ∀ a b, r a b → s (f a) (g b)) {found found' : Option (Call α)}
    (hcall : Option.Rel (Call.Trims r) found found') :
    Option.Rel (Call.Trims s) (found.map (Call.map f)) (found'.map (Call.map g)) := by
  cases hcall with
  | none => exact .none
  | some hcall => exact .some ⟨hcall.block, hcall.count, h _ _ hcall.holder⟩

theorem Definition.trims_call? (name : String) {definitions definitions' : List Definition}
    (h : List.Forall₂ Definition.Trims definitions definitions') :
    Option.Rel (Call.Trims (List.Forall₂ Definition.Trims)) (Definition.call? name definitions)
      (Definition.call? name definitions') := by
  induction h with
  | nil => exact .none
  | cons hfirst hrest ih =>
    rw [Definition.call?, Definition.call?, hfirst.block.name, hfirst.invocations]
    split
    · exact .some ⟨hfirst.block, rfl, .cons ⟨hfirst.block, rfl⟩ hrest⟩
    · exact Call.Trims.map (fun _ _ h => .cons hfirst h) ih

theorem Scope.trims_call? (name : String) {scopes scopes' : List Scope}
    (h : List.Forall₂ Scope.Trims scopes scopes') :
    Option.Rel (Call.Trims (List.Forall₂ Scope.Trims)) (Scope.call? name scopes)
      (Scope.call? name scopes') := by
  induction h with
  | nil => exact .none
  | @cons s s' _ _ hfirst hrest ih =>
    have hcall := Definition.trims_call? name hfirst.blocks
    rw [Scope.call?, Scope.call?]
    revert hcall
    generalize Definition.call? name s.blocks = found
    generalize Definition.call? name s'.blocks = found'
    rintro (⟨hcall⟩ | -)
    · exact .some ⟨hcall.block, hcall.count,
        .cons ⟨hfirst.id, hfirst.bindings, hcall.holder, hfirst.enclosing⟩ hrest⟩
    · exact Call.Trims.map (fun _ _ h => .cons hfirst h) ih

theorem Scope.trims_lookup? (name : String) {scopes scopes' : List Scope}
    (h : List.Forall₂ Scope.Trims scopes scopes') : lookup? name scopes' = lookup? name scopes := by
  unfold lookup?
  induction h with
  | nil => rfl
  | cons hfirst _ ih => rw [List.findSome?_cons, List.findSome?_cons, hfirst.bindings, ih]

theorem Scope.trims_root : root.Trims root := ⟨rfl, rfl, .nil, .none⟩

theorem Scope.Trims.bind {s s' : Scope} (h : s.Trims s') (name : String) (wire : WireId) :
    (s.bind name wire).Trims (s'.bind name wire) :=
  ⟨h.id, congrArg (Bindings.insert name wire) h.bindings, h.blocks, h.enclosing⟩

theorem Scope.Trims.rewire {s s' : Scope} (h : s.Trims s') (old new : WireId) :
    (s.rewire old new).Trims (s'.rewire old new) :=
  ⟨h.id, congrArg (Bindings.rewire old new) h.bindings, h.blocks, h.enclosing⟩

namespace Draft

variable {d d' : Draft}

theorem trims_empty : empty.Trims empty :=
  ⟨rfl, .nil, rfl, Scope.trims_root, .nil, rfl, rfl, rfl⟩

namespace Trims

theorem scopes (h : d.Trims d') : List.Forall₂ Scope.Trims d.scopes d'.scopes :=
  .cons h.scope h.outer

theorem lookup? (h : d.Trims d') (name : String) : d'.lookup? name = d.lookup? name :=
  Scope.trims_lookup? name h.scopes

theorem newWire (h : d.Trims d') (desc : Option String) :
    (d'.newWire desc).1 = (d.newWire desc).1 ∧ (d.newWire desc).2.Trims (d'.newWire desc).2 := by
  unfold Draft.newWire
  rw [h.wires, h.lastWire]
  exact ⟨rfl, rfl, h.gates, h.contexts, h.scope, h.outer, rfl, h.lastGate, h.lastFrame⟩

/-- New gates may differ in the place of an argument. -/
theorem newGate (h : d.Trims d') {kind : GateKind} {label label' : String}
    (hlabel : label' = label ∨ kind = .blockInput ∧ ∃ place place' block count,
      label = Gate.inputLabel place block count ∧ label' = Gate.inputLabel place' block count)
    (inputs outputs : List WireId) (context : ContextId) :
    (d.newGate kind label inputs outputs context).Trims
      (d'.newGate kind label' inputs outputs context) := by
  unfold Draft.newGate
  rw [h.wires, h.lastGate]
  exact ⟨rfl, .cons ⟨rfl, hlabel⟩ h.gates, h.contexts, h.scope, h.outer, h.lastWire, rfl,
    h.lastFrame⟩

theorem newFrame (h : d.Trims d') :
    d'.newFrame.1 = d.newFrame.1 ∧ d.newFrame.2.Trims d'.newFrame.2 := by
  unfold Draft.newFrame
  rw [h.lastFrame]
  exact ⟨rfl, h.wires, h.gates, h.contexts, h.scope, h.outer, h.lastWire, h.lastGate, rfl⟩

theorem addContext (h : d.Trims d') (context : Context) :
    (d.addContext context).Trims (d'.addContext context) :=
  ⟨h.wires, h.gates, congrArg (context :: ·) h.contexts, h.scope, h.outer, h.lastWire,
    h.lastGate, h.lastFrame⟩

theorem enter (h : d.Trims d') {scope scope' : Scope} (hscope : scope.Trims scope') :
    (d.enter scope).Trims (d'.enter scope') :=
  ⟨h.wires, h.gates, h.contexts, hscope, h.scopes, h.lastWire, h.lastGate, h.lastFrame⟩

theorem leave (h : d.Trims d') : d.leave.Trims d'.leave := by
  have houter := h.outer
  unfold Draft.leave
  generalize d.outer = outer at houter
  generalize d'.outer = outer' at houter
  cases houter with
  | nil => exact h
  | cons hscope houter =>
    exact ⟨h.wires, h.gates, h.contexts, hscope, houter, h.lastWire, h.lastGate, h.lastFrame⟩

theorem define (h : d.Trims d') {block block' : Block} (hblock : block.Trims block') :
    (d.define block).Trims (d'.define block') :=
  ⟨h.wires, h.gates, h.contexts,
    ⟨h.scope.id, h.scope.bindings, List.rel_append h.scope.blocks (.cons ⟨hblock, rfl⟩ .nil),
      h.scope.enclosing⟩,
    h.outer, h.lastWire, h.lastGate, h.lastFrame⟩

theorem call? (h : d.Trims d') (name : String) :
    Option.Rel (Call.Trims Draft.Trims) (d.call? name) (d'.call? name) := by
  refine Call.Trims.map (fun scopes scopes' hscopes => ?_) (Scope.trims_call? name h.scopes)
  cases hscopes with
  | nil => exact h
  | cons hscope houter =>
    exact ⟨h.wires, h.gates, h.contexts, hscope, houter, h.lastWire, h.lastGate, h.lastFrame⟩

theorem bind (h : d.Trims d') (name : String) (wire : WireId) :
    (d.bind name wire).Trims (d'.bind name wire) :=
  ⟨h.wires, h.gates, h.contexts, h.scope.bind name wire, h.outer, h.lastWire, h.lastGate,
    h.lastFrame⟩

theorem rewire (h : d.Trims d') (old new : WireId) :
    (d.rewire old new).Trims (d'.rewire old new) :=
  ⟨h.wires, List.rel_map (fun _ _ hgate => hgate.rewire old new) h.gates, h.contexts,
    h.scope.rewire old new, List.rel_map (fun _ _ hscope => hscope.rewire old new) h.outer,
    h.lastWire, h.lastGate, h.lastFrame⟩

/-- The events that a draft keeps do not matter. -/
theorem noted (h : d.Trims d') (rebindings rebindings' : List Rebinding)
    (expanded expanded' : List Expanded) :
    { d with rebindings, expanded }.Trims
      { d' with rebindings := rebindings', expanded := expanded' } :=
  ⟨h.wires, h.gates, h.contexts, h.scope, h.outer, h.lastWire, h.lastGate, h.lastFrame⟩

theorem assign (h : d.Trims d') (name : String) (wire : WireId) :
    (d.assign name wire).Trims (d'.assign name wire) := by
  unfold Draft.assign
  rw [h.scope.bindings]
  split
  · exact h
  · split
    · exact h.bind name wire
    · split
      · exact h.noted _ _ _ _
      · exact ((h.noted _ _ _ _).bind name wire).rewire _ wire

theorem assignAll (h : d.Trims d') (pairs : List (String × WireId)) :
    (d.assignAll pairs).Trims (d'.assignAll pairs) := by
  induction pairs generalizing d d' with
  | nil => exact h
  | cons pair pairs ih => exact ih (h.assign pair.1 pair.2)

end Trims

end Draft

namespace Expansion

variable {α β γ δ : Type} {r : α → β → Prop} {s : γ → δ → Prop}

/-! ## Following a computation -/

/-- Wherever the first computation runs, the second one runs from the draft of the other
description, and gives a related value. -/
def Follows (r : α → β → Prop) (x : Expansion α) (y : Expansion β) : Prop :=
  ∀ ⦃d e : Draft⦄, d.Trims e → ∀ ⦃a : α⦄ ⦃d' : Draft⦄, Runs x d a d' →
    ∃ b e', Runs y e b e' ∧ r a b ∧ d'.Trims e'

theorem follows_pure {a : α} {b : β} (h : r a b) : Follows r (pure a) (pure b) := by
  intro d e hde a' d' hrun
  obtain ⟨rfl, rfl⟩ := runs_pure.1 hrun
  exact ⟨b, e, runs_pure.2 ⟨rfl, rfl⟩, h, hde⟩

/-- Nothing has to follow a fault. -/
theorem follows_fail (error : ExpansionError) (y : Expansion β) : Follows r (fail error) y :=
  fun _ _ _ _ _ hrun => absurd hrun runs_fail

theorem Follows.bind {x : Expansion α} {y : Expansion β} {f : α → Expansion γ}
    {g : β → Expansion δ} (h : Follows r x y) (hrest : ∀ a b, r a b → Follows s (f a) (g b)) :
    Follows s (x >>= f) (y >>= g) := by
  intro d e hde c d' hrun
  obtain ⟨a, between, hx, hf⟩ := runs_bind.1 hrun
  obtain ⟨b, between', hy, hab, hbetween⟩ := h hde hx
  obtain ⟨c', e', hg, hcc', hde'⟩ := hrest a b hab hbetween hf
  exact ⟨c', e', runs_bind.2 ⟨b, between', hy, hg⟩, hcc', hde'⟩

theorem Follows.bind_eq {x y : Expansion α} {f : α → Expansion γ} {g : α → Expansion δ}
    (h : Follows Eq x y) (hrest : ∀ a, Follows s (f a) (g a)) :
    Follows s (x >>= f) (y >>= g) :=
  h.bind fun a _ hab => hab ▸ hrest a

theorem Follows.mono {r' : α → β → Prop} {x : Expansion α} {y : Expansion β}
    (h : Follows r x y) (himp : ∀ a b, r a b → r' a b) : Follows r' x y := by
  intro d e hde a d' hrun
  obtain ⟨b, e', hy, hab, hde'⟩ := h hde hrun
  exact ⟨b, e', hy, himp a b hab, hde'⟩

theorem follows_get {f : Draft → Expansion γ} {g : Draft → Expansion δ}
    (h : ∀ d e : Draft, d.Trims e → Follows s (f d) (g e)) :
    Follows s (get >>= f) (get >>= g) := fun d e hde => h d e hde hde

theorem follows_set {d e : Draft} (h : d.Trims e) :
    Follows Eq (set d : Expansion PUnit) (set e) :=
  fun _ _ _ _ _ hrun => ⟨⟨⟩, e, runs_set.2 rfl, rfl, runs_set.1 hrun ▸ h⟩

theorem follows_modify {f g : Draft → Draft} (h : ∀ d e : Draft, d.Trims e → (f d).Trims (g e)) :
    Follows Eq (modify f : Expansion PUnit) (modify g) :=
  fun d e hde _ _ hrun => ⟨⟨⟩, g e, runs_modify.2 rfl, rfl, runs_modify.1 hrun ▸ h d e hde⟩

theorem follows_modifyGet {f : Draft → α × Draft} {g : Draft → β × Draft}
    (h : ∀ d e : Draft, d.Trims e → r (f d).1 (g e).1 ∧ (f d).2.Trims (g e).2) :
    Follows r (modifyGet f : Expansion α) (modifyGet g) := by
  intro d e hde a d' hrun
  have hnext := h d e hde
  rw [runs_modifyGet.1 hrun] at hnext
  exact ⟨(g e).1, (g e).2, runs_modifyGet.2 rfl, hnext⟩

theorem follows_ite {p : Prop} [Decidable p] {x x' : Expansion α} {y y' : Expansion β}
    (h : p → Follows r x y) (h' : ¬p → Follows r x' y') :
    Follows r (if p then x else x') (if p then y else y') := by
  split
  · next hp => exact h hp
  · next hp => exact h' hp

theorem follows_newWire (desc : Option String) : Follows Eq (newWire desc) (newWire desc) :=
  follows_modifyGet fun _ _ hde => ⟨(hde.newWire desc).1.symm, (hde.newWire desc).2⟩

theorem follows_newWires (count : Nat) : Follows Eq (newWires count) (newWires count) := by
  induction count with
  | zero => exact follows_pure rfl
  | succ count ih =>
    exact (follows_newWire none).bind_eq fun _ => ih.bind_eq fun _ => follows_pure rfl

theorem follows_newGate {kind : GateKind} {label label' : String}
    (hlabel : label' = label ∨ kind = .blockInput ∧ ∃ place place' block count,
      label = Gate.inputLabel place block count ∧ label' = Gate.inputLabel place' block count)
    (inputs : List WireId) (context : ContextId) :
    Follows Eq (newGate kind label inputs context) (newGate kind label' inputs context) := by
  refine (follows_newWire none).bind_eq fun output => ?_
  exact (follows_modify fun _ _ hde => hde.newGate hlabel inputs [output] context).bind_eq
    fun _ => follows_pure rfl

theorem follows_wireOf (name : String) : Follows Eq (wireOf name) (wireOf name) := by
  refine follows_get fun d e hde => ?_
  rw [hde.lookup?]
  split
  · exact follows_pure rfl
  · refine (follows_newWire _).bind_eq fun wire => ?_
    exact (follows_modify fun _ _ hde => hde.bind name wire).bind_eq fun _ => follows_pure rfl

/-! ## Pieces of the expansion -/

/-- Yields of nodes that take the same siblings, among which there is no comment. -/
def SameYield (rest rest' : List Node) (yield yield' : Yield) : Prop :=
  yield' = yield ∧ Node.TrimsAll (rest.drop (yield.taken - 1)) (rest'.drop (yield.taken - 1))

/-- A step that does on a description what another step does on the description with its
comments.  The other one does nothing on a comment. -/
structure KeepPace (step step' : Step) : Prop where
  follows : ∀ ⦃node node' : Node⦄ ⦃rest rest' : List Node⦄, node.Trims node' →
    Node.TrimsAll rest rest' → Follows (SameYield rest rest') (step node rest) (step' node' rest')
  comment : ∀ ⦃node : Node⦄ ⦃rest : List Node⦄ ⦃d : Draft⦄ ⦃yield : Yield⦄ ⦃d' : Draft⦄,
    node.isComment = true → Runs (step node rest) d yield d' → yield = .single [] ∧ d' = d

theorem SameYield.single {rest rest' : List Node} (hrest : Node.TrimsAll rest rest')
    (values : List WireId) : SameYield rest rest' (.single values) (.single values) := ⟨rfl, hrest⟩

theorem follows_single {x y : Expansion (List WireId)} {rest rest' : List Node}
    (hrest : Node.TrimsAll rest rest') (h : Follows Eq x y) :
    Follows (SameYield rest rest') (do return .single (← x)) (do return .single (← y)) :=
  h.bind_eq fun values => follows_pure (.single hrest values)

theorem follows_gateHere {rest rest' : List Node} (hrest : Node.TrimsAll rest rest')
    (kind : GateKind) (inputs : List WireId) :
    Follows (SameYield rest rest') (gateHere kind inputs) (gateHere kind inputs) := by
  refine follows_get fun d e hde => ?_
  rw [hde.scope.id]
  exact (follows_newGate (Or.inl rfl) inputs d.scope.id).bind_eq fun output =>
    follows_pure (.single hrest [output])

variable {step step' : Step} {pos pos' : Position}

/-- A node by itself. -/
theorem KeepPace.alone (h : KeepPace step step') {node node' : Node} (hnode : node.Trims node') :
    Follows Eq (step node []) (step' node' []) :=
  (h.follows hnode .nil).mono fun _ _ hyield => hyield.1.symm

theorem follows_operand (h : KeepPace step step') {kind : TokenKind} {side : Side}
    {rhs rhs' : Option Node} (hrhs : Option.Rel Node.Trims rhs rhs') :
    Follows Eq (operand step kind side pos rhs) (operand step' kind side pos' rhs') := by
  cases hrhs with
  | none => exact follows_fail _ _
  | some hnode =>
    refine (h.alone hnode).bind_eq fun yield => ?_
    split
    · exact follows_pure rfl
    · exact follows_fail _ _

/-- A comment has a place among the values, and adds none. -/
theorem follows_valuesEach (h : KeepPace step step') {nodes nodes' : List Node}
    (hnodes : Node.TrimsAll nodes nodes') :
    Follows (fun values values' => values'.flatten = values.flatten) (valuesEach step nodes)
      (valuesEach step' nodes') := by
  induction hnodes with
  | nil => exact follows_pure rfl
  | keep hnode _ ih =>
    refine (h.alone hnode).bind_eq fun yield => ih.bind fun more more' hmore => follows_pure ?_
    rw [List.flatten_cons, List.flatten_cons, hmore]
  | cut hnode _ ih =>
    intro d e hde values d' hrun
    obtain ⟨yield, between, hyield, more, hmore, rfl⟩ := runs_valuesEach_cons.1 hrun
    obtain ⟨rfl, rfl⟩ := h.comment hnode hyield
    obtain ⟨more', e', hmore', hflatten, hde'⟩ := ih hde hmore
    exact ⟨more', e', hmore', hflatten, hde'⟩

theorem assignedValues_of_le {names : List String} {values : List WireId} {taken : Nat}
    (nodes : List Node) (hlen : ¬values.length < names.length) :
    assignedValues step pos names values taken nodes = return ⟨taken, values⟩ := by
  cases nodes with
  | nil => rw [assignedValues, if_neg hlen]
  | cons node rest => rw [assignedValues, dif_neg hlen]

/-- The siblings that an assignment takes are no comments. -/
theorem follows_assignedValues (h : KeepPace step step') {names : List String}
    {values : List WireId} {taken : Nat} {nodes nodes' : List Node}
    (hnodes : Node.TrimsAll nodes nodes') :
    Follows (fun yield yield' => yield' = yield ∧ taken ≤ yield.taken ∧
        Node.TrimsAll (nodes.drop (yield.taken - taken)) (nodes'.drop (yield.taken - taken)))
      (assignedValues step pos names values taken nodes)
      (assignedValues step' pos' names values taken nodes') := by
  by_cases hlen : values.length < names.length
  · cases hnodes with
    | nil =>
      rw [assignedValues, if_pos hlen]
      exact follows_fail _ _
    | @keep node node' rest rest' hnode hrest =>
      rw [assignedValues, assignedValues, dif_pos hlen, dif_pos hlen, hnode.isValue_eq]
      refine follows_ite (fun _ => ?_) fun _ => follows_fail _ _
      refine (h.alone hnode).bind_eq fun yield =>
        follows_ite (fun _ => follows_fail _ _) fun _ => ?_
      refine (follows_assignedValues h hrest).mono fun all all' hall => ?_
      obtain ⟨hsame, htaken, hdrop⟩ := hall
      rw [show all.taken - taken = all.taken - (taken + 1) + 1 by omega]
      exact ⟨hsame, by omega, hdrop⟩
    | cut hnode _ =>
      rw [assignedValues, dif_pos hlen, if_neg (by rw [Node.isValue_of_isComment hnode]; decide)]
      exact follows_fail _ _
  · rw [assignedValues_of_le nodes hlen, assignedValues_of_le nodes' hlen]
    refine follows_pure ⟨rfl, Nat.le_refl _, ?_⟩
    rwa [Nat.sub_self]

theorem follows_assignment (h : KeepPace step step') {names : List String}
    {rest rest' : List Node} (hrest : Node.TrimsAll rest rest') :
    Follows (SameYield rest rest') (assignment step pos names rest)
      (assignment step' pos' names rest') := by
  refine (follows_assignedValues h hrest).bind fun yield yield' hyield => ?_
  obtain ⟨rfl, -, hdrop⟩ := hyield
  exact (follows_modify fun _ _ hde => hde.assignAll _).bind_eq fun _ => follows_pure ⟨rfl, hdrop⟩

/-- A return takes all siblings, and a comment is none of them. -/
theorem follows_returnedValues (h : KeepPace step step') {block block' : Block}
    (hblock : block.Trims block') {values : List WireId} {taken : Nat} {nodes nodes' : List Node}
    (hnodes : Node.TrimsAll nodes nodes') :
    Follows (fun yield yield' => yield' = yield ∧ yield.taken = taken + nodes.length)
      (returnedValues step pos block values taken nodes)
      (returnedValues step' pos' block' values taken nodes') := by
  induction hnodes generalizing values taken with
  | nil =>
    rw [returnedValues, returnedValues, hblock.outputs]
    exact follows_ite (fun _ => follows_fail _ _) fun _ => follows_pure ⟨rfl, rfl⟩
  | @keep node node' rest rest' hnode _ ih =>
    rw [returnedValues, returnedValues, hblock.outputs]
    refine follows_ite (fun _ => ?_) fun _ => follows_fail _ _
    refine (h.alone hnode).bind_eq fun yield => follows_ite (fun _ => follows_fail _ _) fun _ => ?_
    refine ih.mono fun all all' hall => ⟨hall.1, ?_⟩
    rw [hall.2, List.length_cons]
    omega
  | cut hnode _ _ =>
    intro d e _ yield d' hrun
    obtain ⟨-, _, hvalues, -, heach⟩ := runs_returnedValues hrun
    obtain ⟨first, between, hfirst, more, -, rfl⟩ := runs_valuesEach_cons.1 hvalues
    obtain ⟨rfl, -⟩ := h.comment hnode hfirst
    exact absurd rfl (heach [] [] more rfl).1

theorem follows_blockReturn (h : KeepPace step step') {rest rest' : List Node}
    (hrest : Node.TrimsAll rest rest') :
    Follows (SameYield rest rest') (blockReturn step pos rest) (blockReturn step' pos' rest') := by
  refine follows_get fun d e hde => ?_
  have henclosing := hde.scope.enclosing
  generalize d.scope.enclosing = enclosing at henclosing
  generalize e.scope.enclosing = enclosing' at henclosing
  cases henclosing with
  | none => exact follows_fail _ _
  | some hblock =>
    refine (follows_returnedValues h hblock hrest).mono fun yield yield' hyield => ?_
    obtain ⟨rfl, htaken⟩ := hyield
    refine ⟨rfl, ?_⟩
    rw [htaken, Nat.add_sub_cancel_left, List.drop_length, List.drop_of_length_le hrest.length_le]
    exact .nil

/-! ## Invocations -/

theorem follows_invokeBuiltin (h : KeepPace step step') (builtin : Builtin)
    {args args' : List Node} (hargs : Node.TrimsAll args args') :
    Follows Eq (invokeBuiltin step pos builtin args) (invokeBuiltin step' pos' builtin args') := by
  refine (follows_valuesEach h hargs).bind fun values values' hvalues => ?_
  rw [hvalues]
  refine follows_ite (fun _ => follows_fail _ _) fun _ => ?_
  refine (follows_newWires builtin.outputs).bind_eq fun outputs => ?_
  refine (follows_modify fun d e hde => ?_).bind_eq fun _ => follows_pure rfl
  rw [hde.scope.id]
  exact hde.newGate (Or.inl rfl) values.flatten outputs d.scope.id

/-- Arguments that have other places are passed to the same parameters. -/
theorem follows_passInputs {block block' : Block} (hblock : block.Trims block') (count : Nat)
    (frame : ContextId) (bindings : Bindings) {passed passed' : List ((Nat × WireId) × String)}
    (hpassed : List.Forall₂ (fun one other => other.1.2 = one.1.2 ∧ other.2 = one.2) passed
      passed') :
    Follows Eq (passInputs block count frame bindings passed)
      (passInputs block' count frame bindings passed') := by
  induction hpassed generalizing bindings with
  | nil => exact follows_pure rfl
  | @cons one other _ _ hfirst _ ih =>
    obtain ⟨⟨place, wire⟩, param⟩ := one
    obtain ⟨⟨place', _⟩, _⟩ := other
    obtain ⟨rfl, rfl⟩ := hfirst
    rw [passInputs, passInputs, hblock.name]
    refine (follows_newGate (Or.inr ⟨rfl, place, place', block.name, count, rfl, rfl⟩) _ _).bind_eq
      fun bound => ?_
    exact ih _

theorem follows_passOutputs {block block' : Block} (hblock : block.Trims block') (count : Nat)
    (frame : ContextId) (place : Nat) (wires : List WireId) :
    Follows Eq (passOutputs block count frame place wires)
      (passOutputs block' count frame place wires) := by
  induction wires generalizing place with
  | nil => exact follows_pure rfl
  | cons wire rest ih =>
    rw [passOutputs, passOutputs, hblock.name]
    exact (follows_newGate (Or.inl rfl) _ _).bind_eq fun output =>
      (ih _).bind_eq fun more => follows_pure rfl

/-- The nodes of a body one after the other.  Each takes the same siblings in both. -/
theorem follows_expandBody (h : KeepPace step step') {block block' : Block}
    (hblock : block.Trims block') (count : Nat) (frame : ContextId) {nodes nodes' : List Node}
    (hnodes : Node.TrimsAll nodes nodes') :
    Follows Eq (expandBody step block count frame 0 nodes)
      (expandBody step' block' count frame 0 nodes') := by
  cases hnodes with
  | nil => exact follows_pure rfl
  | @keep node node' rest rest' hnode hrest =>
    rw [expandBody, expandBody, hnode.isReturn_eq]
    refine (h.follows hnode hrest).bind fun yield yield' hyield => ?_
    obtain ⟨rfl, hdrop⟩ := hyield
    have hmore (outputs : List WireId) : Follows Eq
        (do let more ← expandBody step block count frame (yield'.taken - 1) rest
            return outputs ++ more)
        (do let more ← expandBody step' block' count frame (yield'.taken - 1) rest'
            return outputs ++ more) := by
      rw [expandBody_eq_drop, expandBody_eq_drop _ rest']
      exact (follows_expandBody h hblock count frame hdrop).bind_eq fun _ => follows_pure rfl
    refine follows_ite (fun _ => ?_) fun _ => ?_
    · exact (follows_passOutputs hblock count frame 0 yield'.values).bind_eq hmore
    · exact (follows_pure rfl).bind_eq hmore
  | @cut node rest _ hnode hrest =>
    intro d e hde values d' hrun
    obtain ⟨yield, between, hyield, outputs, passed, hpassed, more, hmore, rfl⟩ :=
      runs_expandBody_cons hrun
    obtain ⟨rfl, rfl⟩ := h.comment hnode hyield
    rcases hpassed with ⟨hreturn, -⟩ | ⟨-, rfl, rfl⟩
    · exact absurd hreturn (by rw [Node.isReturn_of_isComment hnode]; decide)
    · exact follows_expandBody h hblock count frame hrest hde hmore
termination_by nodes.length
decreasing_by
  · rw [List.length_drop, List.length_cons]
    omega
  · exact Nat.lt_succ_self _

/-- Values that differ in their places are passed to the same parameters. -/
theorem forall₂_zip_of_map_snd_eq {values values' : List (Nat × WireId)}
    (h : values'.map Prod.snd = values.map Prod.snd) (params : List String) :
    List.Forall₂ (fun one other => other.1.2 = one.1.2 ∧ other.2 = one.2) (values.zip params)
      (values'.zip params) := by
  induction values generalizing values' params with
  | nil =>
    cases List.map_eq_nil_iff.1 h
    exact .nil
  | cons value values ih =>
    obtain ⟨value', values', rfl, hvalue, hvalues⟩ := List.map_eq_cons_iff.1 h
    cases params with
    | nil => exact .nil
    | cons param params => exact .cons ⟨hvalue, rfl⟩ (ih hvalues params)

theorem follows_invokeBlock (h : KeepPace step step') (limit : UInt64) (name : String)
    {args args' : List Node} (hargs : Node.TrimsAll args args') :
    Follows Eq (invokeBlock limit step pos name args)
      (invokeBlock limit step' pos' name args') := by
  refine follows_get fun d e hde => ?_
  have hcall := hde.call? name
  generalize d.call? name = found at hcall
  generalize e.call? name = found' at hcall
  cases hcall with
  | none => exact follows_fail _ _
  | @some call call' hcall =>
    obtain ⟨hblock, hcount, hholder⟩ := hcall
    refine (follows_set hholder).bind_eq fun _ => (follows_valuesEach h hargs).bind
      fun values values' hvalues => ?_
    have hsnd : (placed values').map Prod.snd = (placed values).map Prod.snd := by
      rw [map_snd_placed, map_snd_placed, hvalues]
    have hlength : (placed values').length = (placed values).length := by
      rw [← List.length_map (f := Prod.snd), hsnd, List.length_map]
    dsimp only
    rw [hblock.params, hblock.name, hcount, hlength]
    refine follows_ite (fun _ => follows_fail _ _) fun _ => ?_
    refine (follows_modifyGet fun d e hde => ⟨hde.newFrame.1.symm, hde.newFrame.2⟩).bind_eq
      fun frame => ?_
    refine (follows_passInputs hblock call.count frame []
      (forall₂_zip_of_map_snd_eq hsnd call.block.params)).bind_eq fun bindings => ?_
    refine follows_get fun around around' haround => ?_
    rw [← haround.scopes.length_eq]
    refine follows_ite (fun _ => follows_fail _ _) fun _ =>
      follows_get fun parent parent' hparent => ?_
    rw [hparent.scope.id]
    refine (follows_modify fun _ _ hde => hde.addContext _).bind_eq fun _ => ?_
    have hscope : Scope.Trims ⟨frame, bindings, [], some call.block⟩
        ⟨frame, bindings, [], some call'.block⟩ := ⟨rfl, rfl, .nil, .some hblock⟩
    refine (follows_modify fun _ _ hde => hde.enter hscope).bind_eq fun _ => ?_
    refine (follows_expandBody h hblock call.count frame hblock.body).bind_eq fun outputs => ?_
    refine (follows_modify fun _ _ hde => hde.leave).bind_eq fun _ => ?_
    exact (follows_modify fun _ _ hde => hde.noted _ _ _ _).bind_eq fun _ => follows_pure rfl

theorem follows_invoke (h : KeepPace step step') (limit : UInt64) (name : String)
    {args args' : List Node} (hargs : Node.TrimsAll args args') :
    Follows Eq (invoke limit step pos name args) (invoke limit step' pos' name args') := by
  unfold invoke
  split
  · exact follows_invokeBuiltin h _ hargs
  · exact follows_invokeBlock h limit name hargs

/-! ## Nodes and descriptions -/

theorem keepPace_expandNode (limit : UInt64) (h : KeepPace step step') :
    KeepPace (expandNode limit step) (expandNode limit step') where
  follows := by
    intro node node' rest rest' hnode hrest
    cases hnode with
    | comment => exact follows_pure (.single hrest [])
    | binary hlhs hrhs =>
      exact (follows_operand h (.some hlhs)).bind_eq fun a => (follows_operand h hrhs).bind_eq
        fun b => follows_gateHere hrest _ _
    | negation hrhs =>
      exact (follows_operand h hrhs).bind_eq fun a => follows_gateHere hrest _ _
    | group hnodes =>
      refine (follows_valuesEach h hnodes).bind fun values values' hvalues => ?_
      rw [hvalues]
      exact follows_pure (.single hrest _)
    | invocation hnodes => exact follows_single hrest (follows_invoke h limit _ hnodes)
    | block hnodes =>
      refine (follows_modify fun _ _ hde => ?_).bind_eq fun _ => follows_pure (.single hrest [])
      exact hde.define ⟨rfl, rfl, rfl, hnodes⟩
    | returns => exact follows_blockReturn h hrest
    | imports => exact follows_fail _ _
    | assignment => exact follows_assignment h hrest
    | @identifier _ _ name =>
      exact (follows_wireOf name).bind_eq fun wire => follows_pure (.single hrest [wire])
    | literal => exact follows_gateHere hrest _ _
  comment := by
    intro node rest d yield d' hcomment hrun
    cases node with
    | comment => exact runs_pure.1 hrun
    | _ => exact absurd hcomment nofun

theorem keepPace_step (limit : UInt64) (fuel : Nat) :
    KeepPace (Expansion.step limit fuel) (Expansion.step limit fuel) := by
  induction fuel with
  | zero => exact ⟨fun _ _ _ _ _ _ _ _ _ _ _ hrun => absurd hrun runs_throw,
      fun _ _ _ _ _ _ hrun => absurd hrun runs_throw⟩
  | succ fuel ih => exact keepPace_expandNode limit ih

/-- The nodes of a description one after the other.  The values of the last one are those of
the last one that is no comment. -/
theorem follows_expandAll (h : KeepPace step step') (values : List WireId)
    {nodes nodes' : List Node} (hnodes : Node.TrimsAll nodes nodes') :
    Follows Eq (expandAll step values 0 nodes) (expandAll step' values 0 nodes') := by
  cases hnodes with
  | nil => exact follows_pure rfl
  | @keep node node' rest rest' hnode hrest =>
    rw [expandAll, expandAll, hnode.isComment_eq]
    refine (h.follows hnode hrest).bind fun yield yield' hyield => ?_
    obtain ⟨rfl, hdrop⟩ := hyield
    rw [expandAll_eq_drop, expandAll_eq_drop _ _ rest']
    exact follows_expandAll h _ hdrop
  | @cut node rest _ hnode hrest =>
    intro d e hde last d' hrun
    obtain ⟨yield, between, hyield, hmore⟩ := runs_expandAll_cons hrun
    obtain ⟨rfl, rfl⟩ := h.comment hnode hyield
    rw [if_pos hnode] at hmore
    exact follows_expandAll h values hrest hde hmore
termination_by nodes.length
decreasing_by
  · rw [List.length_drop, List.length_cons]
    omega
  · exact Nat.lt_succ_self _

end Expansion

namespace Netlist

open Expansion

/-- Comments and positions do not matter to the circuit.  A description that has a netlist
still has one after comments have been deleted anywhere in it, and positions changed.  The
wires, the gates, the invocations and the outputs are the same, up to the places of arguments
in the labels of the gates that pass them. -/
theorem ofForest_of_trimsAll {limit : UInt64} {nodes nodes' : List Node} {n : Netlist}
    (hnodes : Node.TrimsAll nodes nodes') (h : ofForest limit nodes = .ok n) :
    ∃ n', ofForest limit nodes' = .ok n' ∧ n.SameUpToPlaces n' := by
  obtain ⟨outputs, d, hdraft, rfl⟩ := eq_linkContexts_of_ofForest h
  have hbound : nestingBound limit nodes' = nestingBound limit nodes := by
    rw [nestingBound, nestingBound, Node.heightAll_of_trimsAll hnodes]
  obtain ⟨_, d', hrun, rfl, hd⟩ :=
    follows_expandAll (keepPace_step limit _) [] hnodes Draft.trims_empty hdraft
  have hdraft' : Draft.ofForest limit nodes' = .ok (outputs, d') := by
    rw [Draft.ofForest, hbound]
    exact hrun
  refine ⟨{ d'.netlist with outputs }.linkContexts, ?_, hd.wires, ?_, ?_, rfl⟩
  · rw [ofForest, hdraft']
    rfl
  · exact List.forall₂_reverse_iff.2 hd.gates
  · rw [linkContexts, linkContexts, Draft.netlist, Draft.netlist, hd.contexts]

/-- Two values, of which a block swaps them, with comments wherever they may stand. -/
def commented : List Node :=
  let pos := Position.start
  let comment := Node.comment pos true "swap"
  [comment,
    .block pos "swap" ["x", "y"] 2
      [comment, .returns pos, .identifier pos "y", .identifier pos "x"],
    .assignment pos ["a", "b"],
    .invocation pos "swap" [comment, .literal pos true, .identifier pos "c"],
    .group pos [.identifier pos "a", comment, .identifier pos "b"], comment]

/-- The same without the comments. -/
def uncommented : List Node :=
  let pos := Position.start
  [.block pos "swap" ["x", "y"] 2 [.returns pos, .identifier pos "y", .identifier pos "x"],
    .assignment pos ["a", "b"], .invocation pos "swap" [.literal pos true, .identifier pos "c"],
    .group pos [.identifier pos "a", .identifier pos "b"]]

/-- The places of the arguments are counted without the comment. -/
theorem ofForest_of_trimsAll_commented :
    Node.TrimsAll commented uncommented ∧ ∃ n n', ofForest 2 commented = .ok n ∧
      ofForest 2 uncommented = .ok n' ∧ n.SameUpToPlaces n' ∧
        (n.gates.filter fun gate => gate.kind = .blockInput).map Gate.label =
          [Gate.inputLabel 1 "swap" 1, Gate.inputLabel 2 "swap" 1] ∧
        (n'.gates.filter fun gate => gate.kind = .blockInput).map Gate.label =
          [Gate.inputLabel 0 "swap" 1, Gate.inputLabel 1 "swap" 1] := by
  have htrims : Node.TrimsAll commented uncommented := by
    refine .cut rfl (.keep (.block (.cut rfl ?_)) (.keep .assignment (.keep (.invocation ?_) ?_)))
    · exact .keep .returns (.keep .identifier (.keep .identifier .nil))
    · exact .cut rfl (.keep .literal (.keep .identifier .nil))
    · exact .keep (.group (.keep .identifier (.cut rfl (.keep .identifier .nil)))) (.cut rfl .nil)
  have hbuilt : (ofForest 2 commented).toOption.map (fun n =>
      (n.gates.filter fun gate => gate.kind = .blockInput).map Gate.label) =
        some [Gate.inputLabel 1 "swap" 1, Gate.inputLabel 2 "swap" 1] := by decide +kernel
  have hbuilt' : (ofForest 2 uncommented).toOption.map (fun n =>
      (n.gates.filter fun gate => gate.kind = .blockInput).map Gate.label) =
        some [Gate.inputLabel 0 "swap" 1, Gate.inputLabel 1 "swap" 1] := by decide +kernel
  obtain ⟨n, hn, hlabels⟩ := exists_of_toOption_map hbuilt
  obtain ⟨n', hn', hsame⟩ := ofForest_of_trimsAll htrims hn
  rw [hn'] at hbuilt'
  exact ⟨htrims, n, n', hn, hn', hsame, hlabels, Option.some.inj hbuilt'⟩

end Netlist

end Gatework
