import Gatework.Node

/-!
# Properties of all nodes of a tree

There are two groups.

* `Node.all` asks a question about a node and all nodes inside it, and `Node.allIn`
  about a list of trees.
* What holds of a list holds of its parts, and what is always so holds of every list.
-/

namespace Gatework.Node

/-! ## All nodes -/

mutual

/-- Whether a node and all nodes inside it have a property. -/
def all (q : Node → Bool) : Node → Bool
  | binary pos op lhs rhs => q (binary pos op lhs rhs) && (lhs.all q && allOption q rhs)
  | negation pos rhs => q (negation pos rhs) && allOption q rhs
  | group pos nodes => q (group pos nodes) && allIn q nodes
  | invocation pos name nodes => q (invocation pos name nodes) && allIn q nodes
  | block pos name params outputs nodes =>
    q (block pos name params outputs nodes) && allIn q nodes
  | node => q node

/-- The same for a node that may be missing. -/
def allOption (q : Node → Bool) : Option Node → Bool
  | none => true
  | some node => node.all q

/-- The same for a list of nodes. -/
def allIn (q : Node → Bool) : List Node → Bool
  | [] => true
  | node :: rest => node.all q && allIn q rest

end

/-- A node has the property that it and the nodes inside it have. -/
theorem of_all {q : Node → Bool} {node : Node} (h : node.all q = true) : q node = true := by
  cases node with
  | binary | negation | group | invocation | block =>
    rw [all, Bool.and_eq_true] at h
    exact h.1
  | _ => exact h

/-! ## Lists -/

theorem allIn_cons {q : Node → Bool} {node : Node} {rest : List Node} :
    allIn q (node :: rest) = true ↔ node.all q = true ∧ allIn q rest = true := by
  rw [allIn, Bool.and_eq_true]

theorem all_of_mem {q : Node → Bool} {node : Node} {nodes : List Node}
    (h : allIn q nodes = true) (hnode : node ∈ nodes) : node.all q = true := by
  induction nodes with
  | nil => exact absurd hnode List.not_mem_nil
  | cons first nodes ih =>
    rw [allIn_cons] at h
    rcases List.mem_cons.1 hnode with rfl | hnode
    · exact h.1
    · exact ih h.2 hnode

theorem allIn_of_forall {q : Node → Bool} {nodes : List Node}
    (h : ∀ node ∈ nodes, node.all q = true) : allIn q nodes = true := by
  induction nodes with
  | nil => rfl
  | cons node nodes ih =>
    rw [List.forall_mem_cons] at h
    exact allIn_cons.2 ⟨h.1, ih h.2⟩

theorem allIn_of_append {q : Node → Bool} {front back : List Node}
    (h : allIn q (front ++ back) = true) : allIn q front = true := by
  induction front with
  | nil => rfl
  | cons node front ih =>
    rw [List.cons_append, allIn_cons] at h
    exact allIn_cons.2 ⟨h.1, ih h.2⟩

mutual

theorem all_true : ∀ node : Node, node.all (fun _ => true) = true
  | .binary _ _ lhs rhs => by simp [all, all_true lhs, allOption_true rhs]
  | .negation _ rhs => by simp [all, allOption_true rhs]
  | .group _ nodes | .invocation _ _ nodes | .block _ _ _ _ nodes => by
    simp [all, allIn_true nodes]
  | .comment _ _ _ | .returns _ | .imports _ _ | .assignment _ _ | .identifier _ _
  | .literal _ _ => rfl

theorem allOption_true : ∀ node : Option Node, allOption (fun _ => true) node = true
  | none => rfl
  | some node => all_true node

/-- Every list of nodes has the property that all nodes have. -/
theorem allIn_true : ∀ nodes : List Node, allIn (fun _ => true) nodes = true
  | [] => rfl
  | node :: rest => by rw [allIn, all_true node, allIn_true rest]; rfl

end

end Gatework.Node
