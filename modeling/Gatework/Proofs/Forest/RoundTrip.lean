import Gatework.Proofs.Forest.Tokens
import Gatework.Proofs.Forest.Unplaced
import Gatework.Proofs.Token.Lexing
import Gatework.Proofs.Trees

/-!
# Writing trees and reading them again

Trees that are written as their tokens, with single spaces between them, are read
again as the same trees, apart from positions.

There are five groups.

* `Forest.isRegular` says which trees these are, and `Forest.render` writes them.
  The tokens of regular trees are regular.
* A list stays clean when a node that may stand there is put at its end.
* `Parses` and `ParsesAll`: the tokens of a node, and of a list, build the node or the
  list in every scaffold in which it may stand.  There is one lemma for each kind of
  node.
* The mutual induction over trees and lists.
* `ofText_render`: the round trip of whole texts.
-/

namespace Gatework

/-! ## Regular trees -/

namespace Node

/-- Whether a node is a name. -/
def isIdentifier : Node → Bool
  | identifier _ _ => true
  | _ => false

/-- Whether the first token of a node is a bracket. -/
def startsWithGroup : Node → Bool
  | group _ _ | binary _ _ (group _ _) _ => true
  | _ => false

/-- Whether only operands follow the first return of a list. -/
def returnsLast : List Node → Bool
  | [] => true
  | node :: rest => if node.isReturn then rest.all isOperand else returnsLast rest

/-- Whether no bracket directly follows a name in a list. -/
def keepsNames : List Node → Bool
  | [] => true
  | node :: rest =>
    !(node.isIdentifier && rest.head?.any startsWithGroup) && keepsNames rest

/-- Whether a list of nodes can come from a text. -/
def isRegularList (nodes : List Node) : Bool := returnsLast nodes && keepsNames nodes

/-- Whether a node, apart from the nodes inside it, can come from a text that is rendered:
its names are names, its operands are there, and its list is regular. -/
def isRegular : Node → Bool
  | comment _ _ _ | imports _ _ => false
  | binary _ _ lhs rhs => lhs.isOperand && rhs.any isOperand
  | negation _ rhs => rhs.any isOperand
  | group _ members => isRegularList members
  | invocation _ name args => Token.isPlainName name && isRegularList args
  | block _ name params outputs body =>
    Token.isName name && params.all Token.isName && outputs == valuesAfterReturn body &&
      isRegularList body
  | assignment _ names =>
    !names.isEmpty && names.all fun name => Token.isName name && !reservedWords.contains name
  | identifier _ name => Token.isPlainName name
  | returns _ | literal _ _ => true

end Node

namespace Forest

/-- Whether trees are regular, at every depth. -/
def isRegular (nodes : List Node) : Bool :=
  Node.isRegularList nodes && Node.allIn Node.isRegular nodes

/-- The tokens of trees, with single spaces between them. -/
def render (nodes : List Node) : String :=
  " ".intercalate ((Node.tokensAll nodes).map Token.text)

end Forest

namespace Node

/-- Regular nodes use no reserved word. -/
theorem reservedUse?_of_isRegular {node : Node} (h : node.isRegular = true) :
    node.reservedUse? = none := by
  cases node with
  | identifier pos name =>
    rw [isRegular, Token.isPlainName, Bool.and_eq_true, Bool.not_eq_true'] at h
    have hwords : ∀ word ∈ reservedWords, word ∈ Token.keywords := by decide
    rw [reservedUse?, if_neg]
    intro hreserved
    rw [List.contains_iff_mem.2 (hwords name (List.contains_iff_mem.1 hreserved))] at h
    exact Bool.noConfusion h.2
  | assignment pos names =>
    rw [isRegular, Bool.and_eq_true, List.all_eq_true] at h
    rw [reservedUse?, Option.map_eq_none_iff, List.find?_eq_none]
    intro name hname hreserved
    have hfree := (Bool.and_eq_true_iff.1 (h.2 name hname)).2
    rw [hreserved] at hfree
    exact Bool.noConfusion hfree
  | _ => rfl

/-- Regular operators have their operands. -/
theorem awaitsOperand_of_isRegular {node : Node} (h : node.isRegular = true) :
    node.awaitsOperand = false := by
  cases node with
  | binary pos op lhs rhs =>
    rw [isRegular, Bool.and_eq_true, Option.any_eq_true] at h
    obtain ⟨-, operand, rfl, -⟩ := h
    rfl
  | negation pos rhs =>
    rw [isRegular, Option.any_eq_true] at h
    obtain ⟨operand, rfl, -⟩ := h
    rfl
  | _ => rfl

theorem operandViolation?_of_isRegular {node : Node} (h : node.isRegular = true) :
    node.operandViolation? = none := by
  cases node with
  | binary pos op lhs rhs =>
    rw [isRegular, Bool.and_eq_true, Option.any_eq_true] at h
    obtain ⟨hlhs, operand, rfl, hrhs⟩ := h
    rw [operandViolation?, Gatework.operandViolation?, Gatework.operandViolation?, if_pos hlhs,
      if_pos hrhs]
    rfl
  | negation pos rhs =>
    rw [isRegular, Option.any_eq_true] at h
    obtain ⟨operand, rfl, hrhs⟩ := h
    rw [operandViolation?, Gatework.operandViolation?, if_pos hrhs]
  | _ => rfl

mutual

theorem isRegular_tokens : ∀ node : Node, node.all isRegular = true →
    node.tokens.all Token.isRegular = true
  | .comment _ _ _, h | .imports _ _, h => absurd h nofun
  | .binary _ op lhs rhs, h => by
    rw [all, Bool.and_eq_true, Bool.and_eq_true] at h
    rw [tokens, List.all_append, isRegular_tokens lhs h.2.1, List.all_cons,
      isRegular_tokensOption rhs h.2.2]
    rfl
  | .negation _ rhs, h => by
    rw [all, Bool.and_eq_true] at h
    rw [tokens, List.all_cons, isRegular_tokensOption rhs h.2]
    rfl
  | .group _ members, h => by
    rw [all, Bool.and_eq_true] at h
    rw [tokens, List.all_cons, List.all_append, isRegular_tokensAll members h.2]
    rfl
  | .invocation _ name args, h => by
    rw [all, isRegular, Bool.and_eq_true, Bool.and_eq_true] at h
    rw [tokens, List.all_cons, List.all_cons, List.all_append, isRegular_tokensAll args h.2,
      Token.isRegular, h.1.1]
    rfl
  | .block _ name params _ body, h => by
    rw [all, isRegular, Bool.and_eq_true, Bool.and_eq_true, Bool.and_eq_true] at h
    rw [tokens, List.all_cons, List.all_append, isRegular_tokensAll body h.2, Token.isRegular,
      h.1.1.1]
    rfl
  | .assignment _ names, h => by
    have hself := of_all h
    rw [isRegular, Bool.and_eq_true, List.all_eq_true] at hself
    have hnames : names.all Token.isName = true :=
      List.all_eq_true.2 fun name hname => (Bool.and_eq_true_iff.1 (hself.2 name hname)).1
    rw [tokens, List.all_cons, Token.isRegular, hself.1, hnames]
    rfl
  | .identifier _ name, h => by
    have hself := of_all h
    rw [isRegular] at hself
    rw [tokens, List.all_cons, Token.isRegular, hself]
    rfl
  | .returns _, _ | .literal _ _, _ => rfl

theorem isRegular_tokensOption : ∀ node : Option Node, allOption isRegular node = true →
    (tokensOption node).all Token.isRegular = true
  | none, _ => rfl
  | some node, h => isRegular_tokens node h

/-- The tokens of regular trees are regular. -/
theorem isRegular_tokensAll : ∀ nodes : List Node, allIn isRegular nodes = true →
    (tokensAll nodes).all Token.isRegular = true
  | [], _ => rfl
  | node :: rest, h => by
    rw [allIn_cons] at h
    rw [tokensAll, List.all_append, isRegular_tokens node h.1, isRegular_tokensAll rest h.2]
    rfl

end

end Node

/-! ## Clean lists -/

theorem firstViolation?_append_eq_none_iff {afterReturn : Bool} {nodes : List Node} {node : Node} :
    firstViolation? afterReturn (nodes ++ [node]) = none ↔
      firstViolation? afterReturn nodes = none ∧ node.reservedUse? = none ∧
        ((afterReturn || nodes.any Node.isReturn) = true → node.isOperand = true) := by
  induction nodes generalizing afterReturn with
  | nil =>
    cases hreserved : node.reservedUse? with
    | some violation => simp [firstViolation?, hreserved]
    | none =>
      cases afterReturn <;> cases hoperand : node.isOperand <;>
        simp [firstViolation?, hreserved, hoperand]
  | cons first nodes ih =>
    rw [List.cons_append, firstViolation?, firstViolation?]
    cases first.reservedUse? with
    | some violation => simp
    | none =>
      dsimp only
      split
      · simp
      · rw [ih, List.any_cons, Bool.or_assoc]

namespace Scaffold

variable {importer : Importer} {s placed : Scaffold}

/-- The open list breaks no rule. -/
def Clean (s : Scaffold) : Prop := firstViolation? false s.current.reverse = none

theorem clean_push {node : Node} : (s.push node).Clean ↔ s.Clean ∧ node.reservedUse? = none ∧
    (s.current.any Node.isReturn = true → node.isOperand = true) := by
  rw [Clean, push, List.reverse_cons, firstViolation?_append_eq_none_iff, Bool.false_or,
    List.any_reverse]
  rfl

/-- Adding a token that can be placed, and that breaks no rule. -/
theorem add_of_place {lexeme : Lexeme} (hplace : s.place lexeme = .ok placed)
    (hclean : placed.Clean) (htoken : ∀ path, lexeme.token ≠ .imports path) :
    s.add importer lexeme = .ok placed.bindLast := by
  refine add_eq_ok_iff.2 ⟨placed, placed, hplace, ?_, splice_place importer hplace htoken, rfl⟩
  rw [check, hclean]

theorem addAll_cons {token : Token} {tokens : List Token} {next : Scaffold}
    (h : s.add importer ⟨token, .start⟩ = .ok next) :
    s.addAll importer (token :: tokens) = next.addAll importer tokens := by
  rw [addAll, List.map_cons, List.foldlM_cons, h]
  rfl

theorem addAll_append {front back : List Token} {next : Scaffold}
    (h : s.addAll importer front = .ok next) :
    s.addAll importer (front ++ back) = next.addAll importer back := by
  rw [addAll] at h
  rw [addAll, List.map_append, List.foldlM_append, h]
  rfl

theorem bindLast_push_of_isOperand {node : Node} (h : node.isOperand = false) :
    (s.push node).bindLast = s.push node := by
  obtain ⟨current, outer⟩ := s
  cases current with
  | nil => rfl
  | cons operator rest =>
    change (if node.isOperand && operator.awaitsOperand then _ else _) = _
    rw [h]
    rfl

theorem bindLast_push_of_awaitsOperand {node : Node}
    (h : s.current.head?.any Node.awaitsOperand = false) :
    (s.push node).bindLast = s.push node := by
  obtain ⟨current, outer⟩ := s
  cases current with
  | nil => rfl
  | cons operator rest =>
    have hoperator : operator.awaitsOperand = false := h
    change (if node.isOperand && operator.awaitsOperand then _ else _) = _
    rw [hoperator, Bool.and_false]
    rfl

theorem bindLast_push_push {operator operand : Node} (hoperator : operator.awaitsOperand = true)
    (hoperand : operand.isOperand = true) :
    ((s.push operator).push operand).bindLast = s.push (operator.bindOperand operand) := by
  change (if operand.isOperand && operator.awaitsOperand then _ else _) = _
  rw [hoperator, hoperand]
  rfl

/-! ## Nodes and lists that are built from their tokens -/

/-- A node may stand at the end of the open list. -/
structure Takes (s : Scaffold) (node : Node) : Prop where
  clean : s.Clean
  /-- After a return only operands follow. -/
  operand : s.current.any Node.isReturn = true → node.isOperand = true
  /-- No bracket follows a name. -/
  apart : (s.current.head?.any Node.isIdentifier && node.startsWithGroup) = false
  /-- Only an operand follows an operator that waits for one. -/
  settled : node.isOperand = false → s.current.head?.any Node.awaitsOperand = false

/-- Nodes may stand, one after the other, at the end of the open list. -/
structure TakesAll (s : Scaffold) (nodes : List Node) : Prop where
  clean : s.Clean
  operands : s.current.any Node.isReturn = true → nodes.all Node.isOperand = true
  returns : s.current.any Node.isReturn = false → Node.returnsLast nodes = true
  apart : (s.current.head?.any Node.isIdentifier && nodes.head?.any Node.startsWithGroup) = false
  names : Node.keepsNames nodes = true
  settled : s.current.head?.any Node.awaitsOperand = false

/-- Regular lists may stand between brackets. -/
theorem takesAll_of_isRegularList {nodes : List Node} (h : Node.isRegularList nodes = true)
    (outer : List (Wrapper × List Node)) : TakesAll ⟨[], outer⟩ nodes := by
  rw [Node.isRegularList, Bool.and_eq_true] at h
  exact ⟨rfl, nofun, fun _ => h.1, rfl, h.2, rfl⟩

theorem TakesAll.head {node : Node} {nodes : List Node} (h : s.TakesAll (node :: nodes)) :
    s.Takes node where
  clean := h.clean
  operand hreturn := (Bool.and_eq_true_iff.1 (h.operands hreturn)).1
  apart := h.apart
  settled _ := h.settled

/-- After a regular node the others may follow. -/
theorem TakesAll.tail {node : Node} {nodes : List Node} (h : s.TakesAll (node :: nodes))
    (hnode : node.isRegular = true) : (s.push node.unplaced).TakesAll nodes := by
  have hreturns : (s.push node.unplaced).current.any Node.isReturn =
      (node.isReturn || s.current.any Node.isReturn) := by
    rw [push, List.any_cons, Node.isReturn_unplaced]
  have hnames := h.names
  rw [Node.keepsNames, Bool.and_eq_true, Bool.not_eq_true'] at hnames
  constructor
  case clean =>
    rw [clean_push, Node.reservedUse?_unplaced, Node.isOperand_unplaced]
    exact ⟨h.clean, Node.reservedUse?_of_isRegular hnode, h.head.operand⟩
  case operands =>
    rw [hreturns, Bool.or_eq_true]
    intro hreturn
    cases hbefore : s.current.any Node.isReturn with
    | true => exact (Bool.and_eq_true_iff.1 (h.operands hbefore)).2
    | false =>
      rw [hbefore] at hreturn
      have hlast := h.returns hbefore
      rwa [Node.returnsLast, if_pos (hreturn.resolve_right Bool.false_ne_true)] at hlast
  case returns =>
    rw [hreturns, Bool.or_eq_false_iff]
    rintro ⟨hreturn, hbefore⟩
    have hlast := h.returns hbefore
    rwa [Node.returnsLast, if_neg (by rw [hreturn]; exact Bool.false_ne_true)] at hlast
  case apart =>
    have hname : node.unplaced.isIdentifier = node.isIdentifier := by cases node <;> rfl
    change (node.unplaced.isIdentifier && _) = false
    rw [hname]
    exact hnames.1
  case names => exact hnames.2
  case settled =>
    change node.unplaced.awaitsOperand = false
    rw [Node.awaitsOperand_unplaced, Node.awaitsOperand_of_isRegular hnode]

end Scaffold

namespace Node

variable {importer : Scaffold.Importer}

/-- The tokens of a node build it, wherever it may stand. -/
def Parses (importer : Scaffold.Importer) (node : Node) : Prop :=
  ∀ s : Scaffold, s.Takes node →
    s.addAll importer node.tokens = .ok (s.push node.unplaced).bindLast

/-- The tokens of nodes build them, one after the other, wherever they may stand. -/
def ParsesAll (importer : Scaffold.Importer) (nodes : List Node) : Prop :=
  ∀ s : Scaffold, s.TakesAll nodes →
    s.addAll importer (tokensAll nodes) = .ok ⟨(unplacedAll nodes).reverse ++ s.current, s.outer⟩

/-- A node of a single token. -/
theorem parses_of_place {node : Node} {token : Token} (hregular : node.isRegular = true)
    (htokens : node.tokens = [token]) (htoken : ∀ path, token ≠ .imports path)
    (hplace : ∀ s : Scaffold, s.place ⟨token, .start⟩ = .ok (s.push node.unplaced)) :
    Parses importer node := by
  intro s htakes
  rw [htokens, Scaffold.addAll_cons (Scaffold.add_of_place (hplace s) ?_ htoken)]
  · rfl
  · rw [Scaffold.clean_push, reservedUse?_unplaced, isOperand_unplaced]
    exact ⟨htakes.clean, reservedUse?_of_isRegular hregular, htakes.operand⟩

/-- The tokens of an operand build it behind the operator that waits for it. -/
theorem addAll_operand {operator operand : Node} {s : Scaffold}
    (hwaits : operator.awaitsOperand = true) (hoperand : operand.isOperand = true)
    (hparses : Parses importer operand) (hclean : (s.push operator).Clean) :
    (s.push operator).addAll importer operand.tokens =
      .ok (s.push (operator.bindOperand operand.unplaced)) := by
  have hname : operator.isIdentifier = false := by
    cases operator with
    | identifier => exact absurd hwaits nofun
    | _ => rfl
  have htakes : (s.push operator).Takes operand := by
    refine ⟨hclean, fun _ => hoperand, ?_, fun hnot => absurd (hoperand.symm.trans hnot) nofun⟩
    change (operator.isIdentifier && _) = false
    rw [hname, Bool.false_and]
  rw [hparses _ htakes, Scaffold.bindLast_push_push hwaits (by rw [isOperand_unplaced, hoperand])]

theorem parses_binary {pos : Position} {op : Connective} {lhs rhs : Node}
    (hlhs : lhs.isOperand = true) (hrhs : rhs.isOperand = true) (hleft : Parses importer lhs)
    (hright : Parses importer rhs) : Parses importer (.binary pos op lhs (some rhs)) := by
  intro s htakes
  have hstarts : lhs.startsWithGroup = (binary pos op lhs (some rhs)).startsWithGroup := by
    cases lhs with
    | group | identifier | literal => rfl
    | _ => exact absurd hlhs nofun
  have hsettled := htakes.settled rfl
  have htakesLeft : s.Takes lhs :=
    ⟨htakes.clean, fun _ => hlhs, by rw [hstarts]; exact htakes.apart, fun _ => hsettled⟩
  have hpushed := hleft s htakesLeft
  rw [Scaffold.bindLast_push_of_awaitsOperand hsettled] at hpushed
  have hclean : (s.push (.binary .start op lhs.unplaced none)).Clean :=
    Scaffold.clean_push.2 ⟨htakes.clean, rfl, htakes.operand⟩
  have hplace : (s.push lhs.unplaced).place ⟨.connective op, .start⟩ =
      .ok (s.push (.binary .start op lhs.unplaced none)) := by
    change (if lhs.unplaced.isOperand then _ else _) = _
    rw [isOperand_unplaced, hlhs]
    rfl
  rw [tokens, Scaffold.addAll_append hpushed,
    Scaffold.addAll_cons (Scaffold.add_of_place hplace hclean nofun),
    Scaffold.bindLast_push_of_isOperand rfl, tokensOption,
    addAll_operand rfl hrhs hright hclean, Scaffold.bindLast_push_of_isOperand rfl]
  rfl

theorem parses_negation {pos : Position} {rhs : Node} (hrhs : rhs.isOperand = true)
    (hright : Parses importer rhs) : Parses importer (.negation pos (some rhs)) := by
  intro s htakes
  have hclean : (s.push (.negation .start none)).Clean :=
    Scaffold.clean_push.2 ⟨htakes.clean, rfl, htakes.operand⟩
  have hplace : s.place ⟨.negation, .start⟩ = .ok (s.push (.negation .start none)) := rfl
  rw [tokens, Scaffold.addAll_cons (Scaffold.add_of_place hplace hclean nofun),
    Scaffold.bindLast_push_of_isOperand rfl, tokensOption,
    addAll_operand rfl hrhs hright hclean, Scaffold.bindLast_push_of_isOperand rfl]
  rfl

/-- The tokens of a regular list and of the bracket behind it close the open bracket. -/
theorem addAll_closing (wrapper : Wrapper) {members nodes : List Node}
    {outer : List (Wrapper × List Node)} (hregular : isRegularList members = true)
    (hparses : ParsesAll importer members)
    (hclean : Scaffold.Clean ⟨wrapper.close (unplacedAll members) :: nodes, outer⟩) :
    Scaffold.addAll importer (tokensAll members ++ [.close wrapper.bracket])
        ⟨[], (wrapper, nodes) :: outer⟩ =
      .ok (Scaffold.push (wrapper.close (unplacedAll members)) ⟨nodes, outer⟩).bindLast := by
  have hbody := hparses _ (Scaffold.takesAll_of_isRegularList hregular ((wrapper, nodes) :: outer))
  have hplace : Scaffold.place ⟨.close wrapper.bracket, .start⟩
      ⟨(unplacedAll members).reverse ++ [], (wrapper, nodes) :: outer⟩ =
      .ok ⟨wrapper.close (unplacedAll members) :: nodes, outer⟩ := by
    change (if wrapper.bracket = wrapper.bracket then _ else _) = _
    rw [if_pos rfl, List.append_nil, List.reverse_reverse]
  rw [Scaffold.addAll_append hbody,
    Scaffold.addAll_cons (Scaffold.add_of_place hplace hclean nofun)]
  rfl

theorem parses_group {pos : Position} {members : List Node}
    (hregular : isRegularList members = true) (hparses : ParsesAll importer members) :
    Parses importer (.group pos members) := by
  intro s htakes
  obtain ⟨current, outer⟩ := s
  have hopen : Scaffold.place ⟨.groupOpen, .start⟩ ⟨current, outer⟩ =
      .ok ⟨[], (.group .start, current) :: outer⟩ := by
    have hapart := htakes.apart
    rw [startsWithGroup, Bool.and_true] at hapart
    cases current with
    | nil => rfl
    | cons node rest =>
      cases node with
      | identifier => exact absurd hapart nofun
      | _ => rfl
  have hclean : (Scaffold.push (.group .start (unplacedAll members)) ⟨current, outer⟩).Clean :=
    Scaffold.clean_push.2 ⟨htakes.clean, rfl, fun _ => rfl⟩
  rw [tokens, Scaffold.addAll_cons (Scaffold.add_of_place hopen rfl nofun)]
  exact addAll_closing (.group .start) hregular hparses hclean

theorem parses_invocation {pos : Position} {name : String} {args : List Node}
    (hname : Token.isPlainName name = true) (hregular : isRegularList args = true)
    (hparses : ParsesAll importer args) : Parses importer (.invocation pos name args) := by
  intro s htakes
  have hidentifier : (identifier .start name).isRegular = true := hname
  have hnamed : (s.push (.identifier .start name)).Clean :=
    Scaffold.clean_push.2 ⟨htakes.clean, reservedUse?_of_isRegular hidentifier, fun _ => rfl⟩
  have hclean : (Scaffold.push (.invocation .start name (unplacedAll args)) s).Clean :=
    Scaffold.clean_push.2 ⟨htakes.clean, rfl, htakes.operand⟩
  have hplace : s.place ⟨.identifier name, .start⟩ = .ok (s.push (.identifier .start name)) := rfl
  have hopen : (s.push (.identifier .start name)).place ⟨.groupOpen, .start⟩ =
      .ok ⟨[], (.invocation .start name, s.current) :: s.outer⟩ := rfl
  rw [tokens, Scaffold.addAll_cons (Scaffold.add_of_place hplace hnamed nofun),
    Scaffold.bindLast_push_of_awaitsOperand (htakes.settled rfl),
    Scaffold.addAll_cons (Scaffold.add_of_place hopen rfl nofun)]
  exact addAll_closing (.invocation .start name) hregular hparses hclean

/-- The tokens of a block build it, also behind an operator that waits for an operand. -/
theorem addAll_block {s : Scaffold} {pos : Position} {name : String} {params : List String}
    {outputs : Nat} {body : List Node} (houtputs : outputs = valuesAfterReturn body)
    (hregular : isRegularList body = true) (hparses : ParsesAll importer body)
    (hclean : (s.push (block pos name params outputs body).unplaced).Clean) :
    s.addAll importer (block pos name params outputs body).tokens =
      .ok (s.push (block pos name params outputs body).unplaced).bindLast := by
  have hblock : (Wrapper.block .start name params).close (unplacedAll body) =
      (block pos name params outputs body).unplaced := by
    rw [Wrapper.close, valuesAfterReturn_unplacedAll, unplaced, houtputs]
  have hopen : s.place ⟨.blockOpen name params, .start⟩ =
      .ok ⟨[], (.block .start name params, s.current) :: s.outer⟩ := rfl
  rw [← hblock] at hclean
  rw [tokens, Scaffold.addAll_cons (Scaffold.add_of_place hopen rfl (by simp)), ← hblock]
  exact addAll_closing (.block .start name params) hregular hparses hclean

theorem parses_block {pos : Position} {name : String} {params : List String} {outputs : Nat}
    {body : List Node} (houtputs : outputs = valuesAfterReturn body)
    (hregular : isRegularList body = true) (hparses : ParsesAll importer body) :
    Parses importer (.block pos name params outputs body) := fun _ htakes =>
  addAll_block houtputs hregular hparses
    (Scaffold.clean_push.2 ⟨htakes.clean, rfl, htakes.operand⟩)

/-! ## All regular trees -/

mutual

theorem parses_of_isRegular (importer : Scaffold.Importer) : ∀ node : Node,
    node.all isRegular = true → Parses importer node
  | .comment _ _ _, h | .imports _ _, h => absurd h nofun
  | .binary _ _ lhs none, h => by
    have hself := of_all h
    rw [isRegular, Option.any_none, Bool.and_false] at hself
    exact absurd hself nofun
  | .binary _ _ lhs (some rhs), h => by
    rw [all, isRegular, Bool.and_eq_true, Bool.and_eq_true, Bool.and_eq_true] at h
    exact parses_binary h.1.1 h.1.2 (parses_of_isRegular importer lhs h.2.1)
      (parses_of_isRegular importer rhs h.2.2)
  | .negation _ none, h => absurd (of_all h) nofun
  | .negation _ (some rhs), h => by
    rw [all, isRegular, Bool.and_eq_true] at h
    exact parses_negation h.1 (parses_of_isRegular importer rhs h.2)
  | .group _ members, h => by
    rw [all, isRegular, Bool.and_eq_true] at h
    exact parses_group h.1 (parsesAll_of_isRegular importer members h.2)
  | .invocation _ name args, h => by
    rw [all, isRegular, Bool.and_eq_true, Bool.and_eq_true] at h
    exact parses_invocation h.1.1 h.1.2 (parsesAll_of_isRegular importer args h.2)
  | .block _ name params outputs body, h => by
    rw [all, isRegular, Bool.and_eq_true, Bool.and_eq_true, Bool.and_eq_true] at h
    exact parses_block (eq_of_beq h.1.1.2) h.1.2 (parsesAll_of_isRegular importer body h.2)
  | .returns _, h => parses_of_place (of_all h) rfl nofun fun _ => rfl
  | .assignment _ _, h => parses_of_place (of_all h) rfl nofun fun _ => rfl
  | .identifier _ _, h => parses_of_place (of_all h) rfl nofun fun _ => rfl
  | .literal _ _, h => parses_of_place (of_all h) rfl nofun fun _ => rfl

theorem parsesAll_of_isRegular (importer : Scaffold.Importer) : ∀ nodes : List Node,
    allIn isRegular nodes = true → ParsesAll importer nodes
  | [], _ => fun _ _ => rfl
  | node :: rest, h => by
    rw [allIn_cons] at h
    intro s htakes
    have hnode := parses_of_isRegular importer node h.1 s htakes.head
    rw [Scaffold.bindLast_push_of_awaitsOperand htakes.settled] at hnode
    rw [tokensAll, Scaffold.addAll_append hnode,
      parsesAll_of_isRegular importer rest h.2 _ (htakes.tail (of_all h.1)), unplacedAll,
      List.reverse_cons, List.append_assoc]
    rfl

end

end Node

/-! ## Whole texts -/

namespace Forest

theorem finish_of_allIn {nodes : List Node} (h : Node.allIn Node.isRegular nodes = true)
    (pos : Position) :
    Scaffold.finish pos ⟨(Node.unplacedAll nodes).reverse, []⟩ = .ok (Node.unplacedAll nodes) := by
  have hnone : (Node.unplacedAll nodes).findSome? Node.operandViolation? = none := by
    rw [Node.unplacedAll_eq_map, List.findSome?_map, List.findSome?_eq_none_iff]
    intro node hnode
    rw [Function.comp, Node.operandViolation?_unplaced]
    exact Node.operandViolation?_of_isRegular (Node.of_all (Node.all_of_mem h hnode))
  unfold Scaffold.finish
  dsimp only
  rw [List.reverse_reverse, hnone]
  rfl

/-- Trees that are written as their tokens, with single spaces between them, are read
again as the same trees, apart from positions. -/
theorem ofText_render (origin : Origin) {nodes : List Node} (h : isRegular nodes = true) :
    (ofText origin (render nodes)).map Node.unplacedAll = .ok (Node.unplacedAll nodes) := by
  rw [isRegular, Bool.and_eq_true] at h
  obtain ⟨hlist, hnodes⟩ := h
  obtain ⟨hread, last, hending⟩ :=
    tokens_readFrom_spaced (Node.isRegular_tokensAll nodes hnodes) .start
  have hbuilt := Node.parsesAll_of_isRegular (importCollection origin) nodes hnodes .empty
    (Scaffold.takesAll_of_isRegularList hlist [])
  rw [Scaffold.empty, List.append_nil] at hbuilt
  have hsame := unplaced_ofTextWith (importCollection origin) hread hending
  rw [Scaffold.empty, hbuilt] at hsame
  change unplacedResult Node.unplacedAll (ofText origin (render nodes)) =
    unplacedResult Node.unplacedAll (Scaffold.finish .start ⟨(Node.unplacedAll nodes).reverse, []⟩)
    at hsame
  rw [finish_of_allIn hnodes, unplacedResult, Node.unplacedAll_unplacedAll] at hsame
  cases hresult : ofText origin (render nodes) with
  | error fault =>
    rw [hresult] at hsame
    cases hsame
  | ok read =>
    rw [hresult] at hsame
    exact hsame

/-- A block that binds two names to an invocation, and an invocation whose name starts
like a block header. -/
theorem ofText_render_blocks :
    ∃ nodes, isRegular nodes = true ∧
      render nodes =
        "block f(a b) \x7b let x y = g ( a 1 ) return ( a and ( not b ) ) x \x7d blockx ( 0 )" ∧
      (ofText .client (render nodes)).map Node.unplacedAll = .ok (Node.unplacedAll nodes) := by
  have hregular : isRegular
      [.block .start "f" ["a", "b"] 2
        [.assignment .start ["x", "y"],
          .invocation .start "g" [.identifier .start "a", .literal .start true],
          .returns .start,
          .group .start [.binary .start .conj (.identifier .start "a")
            (some (.group .start [.negation .start (some (.identifier .start "b"))]))],
          .identifier .start "x"],
        .invocation .start "blockx" [.literal .start false]] = true := by
    decide +kernel
  exact ⟨_, hregular, by decide +kernel, ofText_render .client hregular⟩

end Forest

end Gatework
