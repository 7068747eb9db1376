import Gatework.Expansion.Draft
import Mathlib.Logic.Equiv.Basic

/-!
# Trees with other names for their variables

There are two groups.

* `Renaming` gives other names to variables, and `Node.rename` puts them into a tree.  The names
  of blocks are names of another sort, and stay.
* What stays as it is: what a node is and where it stands, whether it yields values, and the
  height of a tree.
-/

namespace Gatework

/-- Other names for variables.  Different variables get different names, and the name that binds
nothing is kept. -/
structure Renaming where
  name : String → String
  injective : Function.Injective name
  name_discarded : name Draft.discarded = Draft.discarded

/-- Two variables that change their names. -/
def Renaming.swap (one other : String) (hone : one ≠ Draft.discarded)
    (hother : other ≠ Draft.discarded) : Renaming where
  name := Equiv.swap one other
  injective := (Equiv.swap one other).injective
  name_discarded := Equiv.swap_apply_of_ne_of_ne hone.symm hother.symm

namespace Node

/-! ## Trees -/

mutual

/-- A tree with other names for its variables. -/
def rename (ρ : Renaming) : Node → Node
  | binary pos op lhs rhs => binary pos op (rename ρ lhs) (renameOption ρ rhs)
  | negation pos rhs => negation pos (renameOption ρ rhs)
  | group pos nodes => group pos (renameAll ρ nodes)
  | invocation pos name nodes => invocation pos name (renameAll ρ nodes)
  | block pos name params outputs nodes =>
    block pos name (params.map ρ.name) outputs (renameAll ρ nodes)
  | assignment pos names => assignment pos (names.map ρ.name)
  | identifier pos name => identifier pos (ρ.name name)
  | node => node

/-- A tree that may be missing, with other names. -/
def renameOption (ρ : Renaming) : Option Node → Option Node
  | none => none
  | some node => some (rename ρ node)

/-- A list of trees with other names. -/
def renameAll (ρ : Renaming) : List Node → List Node
  | [] => []
  | node :: rest => rename ρ node :: renameAll ρ rest

end

/-! ## What stays -/

variable (ρ : Renaming) (node : Node)

@[simp] theorem pos_rename : (node.rename ρ).pos = node.pos := by
  cases node <;> rfl

@[simp] theorem kind_rename : (node.rename ρ).kind = node.kind := by
  cases node <;> rfl

@[simp] theorem isValue_rename : (node.rename ρ).isValue = node.isValue := by
  cases node <;> rfl

@[simp] theorem isComment_rename : (node.rename ρ).isComment = node.isComment := by
  cases node <;> rfl

@[simp] theorem isReturn_rename : (node.rename ρ).isReturn = node.isReturn := by
  cases node <;> rfl

@[simp] theorem length_renameAll (nodes : List Node) :
    (renameAll ρ nodes).length = nodes.length := by
  induction nodes with
  | nil => rfl
  | cons node nodes ih => rw [renameAll, List.length_cons, List.length_cons, ih]

mutual

theorem height_rename : ∀ node : Node, (node.rename ρ).height = node.height
  | binary _ _ lhs rhs => by
    rw [rename, height, height, height_rename lhs, heightOption_renameOption rhs]
  | negation _ rhs => by rw [rename, height, height, heightOption_renameOption rhs]
  | group _ nodes => by rw [rename, height, height, heightAll_renameAll nodes]
  | invocation _ _ nodes => by rw [rename, height, height, heightAll_renameAll nodes]
  | block _ _ _ _ nodes => by rw [rename, height, height, heightAll_renameAll nodes]
  | comment _ _ _ | returns _ | imports _ _ | assignment _ _ | identifier _ _ | literal _ _ => rfl

theorem heightOption_renameOption : ∀ rhs : Option Node,
    heightOption (renameOption ρ rhs) = heightOption rhs
  | none => rfl
  | some node => height_rename node

theorem heightAll_renameAll : ∀ nodes : List Node,
    heightAll (renameAll ρ nodes) = heightAll nodes
  | [] => rfl
  | node :: rest => by rw [renameAll, heightAll, heightAll, height_rename, heightAll_renameAll rest]

end

end Node

end Gatework
