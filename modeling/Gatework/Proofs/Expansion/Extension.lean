import Gatework.Proofs.Expansion.Runs

/-!
# Expansions that are cut off

An expansion with a greater bound on its descent, or with a looser limit on the open
scopes, does the same as before, unless the first one was cut off.

There are three groups.

* `Extends` compares two computations.  A cut is a set of halts, after which nothing
  is said of the second computation.
* The pieces of the expansion.  A step that extends another makes pieces that do.
* A limit that lets through what another does (`Loosens`), and `extends_expandNode`.
  The induction on the bounds of two descents gives `extends_step`, and
  `extends_expandAll` is the result for lists of nodes.
-/

namespace Gatework.Expansion

variable {α β : Type} {cut : Halt → Prop}

/-! ## Extending a computation -/

/-- The second computation does what the first one does, from any draft from which the
first one is not cut off. -/
def Extends (cut : Halt → Prop) (x y : Expansion α) : Prop :=
  ∀ d : Draft, (∃ halt, cut halt ∧ x.run d = .error halt) ∨ y.run d = x.run d

theorem Extends.refl (x : Expansion α) : Extends cut x x := fun _ => Or.inr rfl

theorem Extends.bind {x y : Expansion α} {f g : α → Expansion β} (h : Extends cut x y)
    (hrest : ∀ a, Extends cut (f a) (g a)) : Extends cut (x >>= f) (y >>= g) := by
  intro d
  rw [StateT.run_bind, StateT.run_bind]
  rcases h d with ⟨halt, hcut, hx⟩ | hsame
  · rw [hx]
    exact Or.inl ⟨halt, hcut, rfl⟩
  · rw [hsame]
    cases x.run d with
    | error halt => exact Or.inr rfl
    | ok result => exact hrest result.1 result.2

/-- What comes before both computations is the same. -/
theorem Extends.bind_right {x : Expansion α} {f g : α → Expansion β}
    (h : ∀ a, Extends cut (f a) (g a)) : Extends cut (x >>= f) (x >>= g) :=
  (Extends.refl x).bind h

/-- What comes after both computations is the same. -/
theorem Extends.bind_left {x y : Expansion α} {f : α → Expansion β} (h : Extends cut x y) :
    Extends cut (x >>= f) (y >>= f) :=
  h.bind fun a => .refl (f a)

theorem extends_ite {p : Prop} [Decidable p] {x x' y y' : Expansion α}
    (h : p → Extends cut x x') (h' : ¬p → Extends cut y y') :
    Extends cut (if p then x else y) (if p then x' else y') := by
  split
  · next hp => exact h hp
  · next hp => exact h' hp

/-- A step that extends another one on every node. -/
def ExtendsStep (cut : Halt → Prop) (step step' : Step) : Prop :=
  ∀ (node : Node) (rest : List Node), Extends cut (step node rest) (step' node rest)

/-! ## Pieces of the expansion -/

variable {step step' : Step} {pos : Position} (h : ExtendsStep cut step step')

include h

theorem extends_operand (kind : TokenKind) (side : Side) (rhs : Option Node) :
    Extends cut (operand step kind side pos rhs) (operand step' kind side pos rhs) := by
  cases rhs with
  | none => exact .refl _
  | some node => exact (h node []).bind_left

theorem extends_valuesEach (nodes : List Node) :
    Extends cut (valuesEach step nodes) (valuesEach step' nodes) := by
  induction nodes with
  | nil => exact .refl _
  | cons node rest ih => exact (h node []).bind fun yield => ih.bind_left

theorem extends_assignedValues (names : List String) (values : List WireId) (taken : Nat)
    (nodes : List Node) :
    Extends cut (assignedValues step pos names values taken nodes)
      (assignedValues step' pos names values taken nodes) := by
  induction nodes generalizing values taken with
  | nil => exact .refl _
  | cons node rest ih =>
    simp only [assignedValues]
    split
    · exact extends_ite
        (fun _ => (h node []).bind fun yield => extends_ite (fun _ => .refl _) fun _ => ih _ _)
        fun _ => .refl _
    · exact .refl _

theorem extends_assignment (names : List String) (rest : List Node) :
    Extends cut (assignment step pos names rest) (assignment step' pos names rest) :=
  (extends_assignedValues h names [] 1 rest).bind_left

theorem extends_returnedValues (block : Block) (values : List WireId) (taken : Nat)
    (nodes : List Node) :
    Extends cut (returnedValues step pos block values taken nodes)
      (returnedValues step' pos block values taken nodes) := by
  induction nodes generalizing values taken with
  | nil => exact .refl _
  | cons node rest ih =>
    simp only [returnedValues]
    exact extends_ite
      (fun _ => (h node []).bind fun yield => extends_ite (fun _ => .refl _) fun _ => ih _ _)
      fun _ => .refl _

theorem extends_blockReturn (rest : List Node) :
    Extends cut (blockReturn step pos rest) (blockReturn step' pos rest) := by
  refine .bind_right fun d => ?_
  cases d.scope.enclosing with
  | none => exact .refl _
  | some block => exact extends_returnedValues h block [] 1 rest

theorem extends_invokeBuiltin (builtin : Builtin) (args : List Node) :
    Extends cut (invokeBuiltin step pos builtin args) (invokeBuiltin step' pos builtin args) :=
  (extends_valuesEach h args).bind_left

theorem extends_expandBody (block : Block) (count : Nat) (frame : ContextId) (skipped : Nat)
    (nodes : List Node) :
    Extends cut (expandBody step block count frame skipped nodes)
      (expandBody step' block count frame skipped nodes) := by
  induction nodes generalizing skipped with
  | nil => cases skipped <;> exact .refl _
  | cons node rest ih =>
    cases skipped with
    | succ skipped => exact ih skipped
    | zero =>
      refine (h node rest).bind fun yield => extends_ite (fun _ => ?_) fun _ => ?_
      · exact .bind_right fun outputs => (ih _).bind_left
      · exact .bind_right fun outputs => (ih _).bind_left

theorem extends_expandAll (values : List WireId) (skipped : Nat) (nodes : List Node) :
    Extends cut (expandAll step values skipped nodes)
      (expandAll step' values skipped nodes) := by
  induction nodes generalizing values skipped with
  | nil => cases skipped <;> exact .refl _
  | cons node rest ih =>
    cases skipped with
    | succ skipped => exact ih values skipped
    | zero => exact (h node rest).bind fun yield => ih _ _

omit h

/-! ## Limits -/

theorem le_of_exceeds_eq_false {limit : UInt64} {scopes : Nat} (hlimit : limit ≠ 0)
    (h : exceeds limit scopes = false) : scopes ≤ limit.toNat := by
  simpa [exceeds, hlimit] using h

/-- Every number of scopes that the first limit lets through passes the second one, and
what the first limit stops is in the cut, if the limits differ at all. -/
def Loosens (cut : Halt → Prop) (limit limit' : UInt64) : Prop :=
  limit' = limit ∨
    (∀ scopes, exceeds limit scopes = false → exceeds limit' scopes = false) ∧
      ∀ name pos, cut (.failed (.depthExceeded name limit.toNat pos))

variable {limit limit' : UInt64}

theorem extends_guard (hlimit : Loosens cut limit limit') (scopes : Nat) (name : String)
    {x y : Expansion α} (h : Extends cut x y) :
    Extends cut
      (if exceeds limit scopes then fail (.depthExceeded name limit.toNat pos) else x)
      (if exceeds limit' scopes then fail (.depthExceeded name limit'.toNat pos) else y) := by
  rcases hlimit with rfl | ⟨hpasses, hcut⟩
  · exact extends_ite (fun _ => .refl _) fun _ => h
  · cases hexceeds : exceeds limit scopes with
    | true => exact fun d => Or.inl ⟨_, hcut name pos, rfl⟩
    | false =>
      rw [hpasses scopes hexceeds]
      exact h

theorem extends_invokeBlock (hlimit : Loosens cut limit limit')
    (h : ExtendsStep cut step step') (name : String) (args : List Node) :
    Extends cut (invokeBlock limit step pos name args)
      (invokeBlock limit' step' pos name args) := by
  refine .bind_right fun d => ?_
  cases d.call? name with
  | none => exact .refl _
  | some call =>
    refine .bind_right fun _ => (extends_valuesEach h args).bind fun arguments => ?_
    refine extends_ite (fun _ => .refl _) fun _ => ?_
    refine .bind_right fun frame => .bind_right fun bindings => .bind_right fun around => ?_
    refine extends_guard hlimit _ _ (.bind_right fun parent => .bind_right fun _ => ?_)
    exact .bind_right fun _ => (extends_expandBody h _ _ _ _ _).bind_left

theorem extends_invoke (hlimit : Loosens cut limit limit') (h : ExtendsStep cut step step')
    (name : String) (args : List Node) :
    Extends cut (invoke limit step pos name args) (invoke limit' step' pos name args) := by
  unfold invoke
  cases Builtin.ofName? name with
  | none => exact extends_invokeBlock hlimit h name args
  | some builtin => exact extends_invokeBuiltin h builtin args

theorem extends_expandNode (hlimit : Loosens cut limit limit')
    (h : ExtendsStep cut step step') :
    ExtendsStep cut (expandNode limit step) (expandNode limit' step') := by
  intro node rest
  cases node with
  | binary pos op lhs rhs =>
    exact (extends_operand h _ _ _).bind fun a => (extends_operand h _ _ _).bind_left
  | negation pos rhs => exact (extends_operand h _ _ _).bind_left
  | group pos members => exact (extends_valuesEach h members).bind_left
  | invocation pos name args => exact (extends_invoke hlimit h name args).bind_left
  | returns pos => exact extends_blockReturn h rest
  | assignment pos names => exact extends_assignment h names rest
  | comment | block | imports | identifier | literal => exact .refl _

/-- A greater bound on the descent and a looser limit make a step that extends the other
one, if it counts as a cut that the bound is met. -/
theorem extends_step (hcut : cut .unfinished) (hlimit : Loosens cut limit limit')
    {bound bound' : Nat} (hle : bound ≤ bound') :
    ExtendsStep cut (Expansion.step limit bound) (Expansion.step limit' bound') := by
  induction bound generalizing bound' with
  | zero => exact fun node rest d => Or.inl ⟨.unfinished, hcut, rfl⟩
  | succ bound ih =>
    obtain ⟨bound', rfl⟩ := Nat.exists_eq_add_one_of_ne_zero (show bound' ≠ 0 by omega)
    exact extends_expandNode hlimit (ih (by omega))

end Gatework.Expansion
