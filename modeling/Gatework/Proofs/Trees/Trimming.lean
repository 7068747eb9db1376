import Gatework.Node

/-!
# Trees without some of their comments

There are two groups.

* `TrimsList` says how a list of nodes loses comments, and `Node.Trims` how a tree does,
  wherever they are.  The positions of the nodes that stay do not matter.
* What stays as it is: whether a node yields values, and the height of a tree, among others.
-/

namespace Gatework.Node

/-! ## Losing comments -/

/-- What is left of a list of nodes after some of its comments have been deleted, and the
other nodes have been changed one by one. -/
inductive TrimsList (r : Node → Node → Prop) : List Node → List Node → Prop
  | nil : TrimsList r [] []
  | keep {node node' : Node} {rest rest' : List Node} (hnode : r node node')
      (hrest : TrimsList r rest rest') : TrimsList r (node :: rest) (node' :: rest')
  | cut {node : Node} {rest rest' : List Node} (hnode : node.isComment = true)
      (hrest : TrimsList r rest rest') : TrimsList r (node :: rest) rest'

/-- What is left of a tree after some of the comments between its brackets have been
deleted.  The positions may have changed. -/
inductive Trims : Node → Node → Prop
  | comment {pos pos' : Position} {multiline : Bool} {text : String} :
      Trims (.comment pos multiline text) (.comment pos' multiline text)
  | binary {pos pos' : Position} {op : Connective} {lhs lhs' : Node} {rhs rhs' : Option Node}
      (hlhs : Trims lhs lhs') (hrhs : Option.Rel Trims rhs rhs') :
      Trims (.binary pos op lhs rhs) (.binary pos' op lhs' rhs')
  | negation {pos pos' : Position} {rhs rhs' : Option Node} (hrhs : Option.Rel Trims rhs rhs') :
      Trims (.negation pos rhs) (.negation pos' rhs')
  | group {pos pos' : Position} {nodes nodes' : List Node} (hnodes : TrimsList Trims nodes nodes') :
      Trims (.group pos nodes) (.group pos' nodes')
  | invocation {pos pos' : Position} {name : String} {nodes nodes' : List Node}
      (hnodes : TrimsList Trims nodes nodes') :
      Trims (.invocation pos name nodes) (.invocation pos' name nodes')
  | block {pos pos' : Position} {name : String} {params : List String} {outputs : Nat}
      {nodes nodes' : List Node} (hnodes : TrimsList Trims nodes nodes') :
      Trims (.block pos name params outputs nodes) (.block pos' name params outputs nodes')
  | returns {pos pos' : Position} : Trims (.returns pos) (.returns pos')
  | imports {pos pos' : Position} {path : String} : Trims (.imports pos path) (.imports pos' path)
  | assignment {pos pos' : Position} {names : List String} :
      Trims (.assignment pos names) (.assignment pos' names)
  | identifier {pos pos' : Position} {name : String} :
      Trims (.identifier pos name) (.identifier pos' name)
  | literal {pos pos' : Position} {value : Bool} : Trims (.literal pos value) (.literal pos' value)

/-- What is left of a list of trees after some of the comments anywhere in it have been
deleted. -/
abbrev TrimsAll : List Node → List Node → Prop := TrimsList Trims

/-! ## What stays -/

section

variable {node node' : Node}

theorem Trims.isValue_eq (h : Trims node node') : node'.isValue = node.isValue := by
  cases h <;> rfl

theorem Trims.isComment_eq (h : Trims node node') : node'.isComment = node.isComment := by
  cases h <;> rfl

theorem Trims.isReturn_eq (h : Trims node node') : node'.isReturn = node.isReturn := by
  cases h <;> rfl

end

theorem isValue_of_isComment {node : Node} (h : node.isComment = true) : node.isValue = false := by
  cases node <;> first | rfl | exact absurd h nofun

theorem isReturn_of_isComment {node : Node} (h : node.isComment = true) :
    node.isReturn = false := by
  cases node <;> first | rfl | exact absurd h nofun

theorem TrimsList.length_le {r : Node → Node → Prop} {nodes nodes' : List Node}
    (h : TrimsList r nodes nodes') : nodes'.length ≤ nodes.length := by
  induction h with
  | nil => exact Nat.le_refl _
  | keep _ _ ih => exact Nat.succ_le_succ ih
  | cut _ _ ih => exact Nat.le_succ_of_le ih

/-- Comments add nothing to the height of a tree. -/
theorem height_of_isComment {node : Node} (h : node.isComment = true) : node.height = 0 := by
  cases node <;> first | rfl | exact absurd h nofun

mutual

theorem Trims.height_eq : ∀ {node node' : Node}, Trims node node' → node'.height = node.height
  | .binary _ _ lhs rhs, _, .binary hlhs hrhs => by
    rw [height, height, hlhs.height_eq, heightOption_of_rel hrhs]
  | .negation _ rhs, _, .negation hrhs => by rw [height, height, heightOption_of_rel hrhs]
  | .group _ nodes, _, .group hnodes => by rw [height, height, heightAll_of_trimsAll hnodes]
  | .invocation _ _ nodes, _, .invocation hnodes => by
    rw [height, height, heightAll_of_trimsAll hnodes]
  | .block _ _ _ _ nodes, _, .block hnodes => by
    rw [height, height, heightAll_of_trimsAll hnodes]
  | .comment _ _ _, _, .comment => rfl
  | .returns _, _, .returns => rfl
  | .imports _ _, _, .imports => rfl
  | .assignment _ _, _, .assignment => rfl
  | .identifier _ _, _, .identifier => rfl
  | .literal _ _, _, .literal => rfl

theorem heightOption_of_rel : ∀ {rhs rhs' : Option Node}, Option.Rel Trims rhs rhs' →
    heightOption rhs' = heightOption rhs
  | none, _, .none => rfl
  | some _, _, .some h => h.height_eq

/-- A list of trees is as high without comments as it is with them. -/
theorem heightAll_of_trimsAll : ∀ {nodes nodes' : List Node}, TrimsAll nodes nodes' →
    heightAll nodes' = heightAll nodes
  | [], _, .nil => rfl
  | node :: rest, _, .keep hnode hrest => by
    rw [heightAll, heightAll, hnode.height_eq, heightAll_of_trimsAll hrest]
  | _ :: rest, _, .cut hnode hrest => by
    rw [heightAll, height_of_isComment hnode, Nat.zero_max, heightAll_of_trimsAll hrest]

end

end Gatework.Node
