import Gatework.Proofs.Forest.Declarations
import Mathlib.Data.List.Chain

/-!
# The normal form of trees

The trees of a text are in normal form, at every depth: imports have been replaced,
operands and nothing else follow a return, no bracket follows a name, operators have
taken the operands behind them, and no name is a word with a meaning of its own.  Every
token is followed by a look at the open list only, and nodes are moved afterwards, so
the form has to be kept by each move.

There are five groups.

* `Node.isNormalList` and `Node.isNormal` say what normal form is, and
  `isNormal_reverse_cons` what it takes to put a node at the end of a list.
* The tokens of a text: no identifier is a keyword, and no assignment is without names.
* `Scaffold.Normal`: the open list and the lists around it are in normal form, and each
  bracket may be closed behind the list in which it stands.
* Placing a token, splicing and binding keep scaffolds in normal form.
* `isNormal_ofText`: the trees of whole texts, with collections in the place of imports.
-/

namespace Gatework

/-! ## Normal form -/

namespace Node

/-- The words that name no value and no block that is invoked. -/
def wordsWithMeaning : List String := ["and", "or", "not", "let", "block", "return"]

/-- Whether a node may stand in front of another one: no bracket follows a name, and
no operand follows an operator that waits for one. -/
def mayPrecede (node next : Node) : Bool :=
  !(node.isIdentifier && next.startsWithGroup) && !(node.awaitsOperand && next.isOperand)

/-- Whether a list of nodes is in normal form, apart from the nodes inside it. -/
def isNormalList (nodes : List Node) : Bool :=
  returnsLast nodes && decide (nodes.IsChain fun node next => node.mayPrecede next = true)

/-- Whether a node is in normal form, apart from the nodes inside it.  The outputs of a
block are as many as the nodes behind the first return of its body. -/
def isNormal : Node → Bool
  | imports _ _ => false
  | binary _ _ lhs rhs => lhs.isOperand && rhs.all isOperand
  | negation _ rhs => rhs.all isOperand
  | group _ members => isNormalList members
  | invocation _ name args => !wordsWithMeaning.contains name && isNormalList args
  | block _ _ _ outputs body =>
    outputs == (body.dropWhile fun node => !node.isReturn).tail.length && isNormalList body
  | assignment _ names =>
    !names.isEmpty && names.all fun name => !reservedWords.contains name
  | identifier _ name => !wordsWithMeaning.contains name
  | comment _ _ _ | returns _ | literal _ _ => true

end Node

/-- Whether trees are in normal form, at every depth. -/
def Forest.isNormal (nodes : List Node) : Bool :=
  Node.isNormalList nodes && Node.allIn Node.isNormal nodes

namespace Node

/-- The values that closing a block counts are the nodes behind the first return. -/
theorem valuesAfterReturn_eq (nodes : List Node) :
    valuesAfterReturn nodes = (nodes.dropWhile fun node => !node.isReturn).tail.length := by
  induction nodes with
  | nil => rfl
  | cons node nodes ih => cases node <;> first | rfl | exact ih

/-- Behind a return all nodes are operands, also those of a list that is put there. -/
theorem returnsLast_append (front back : List Node) :
    returnsLast (front ++ back) =
      if front.any isReturn then returnsLast front && back.all isOperand else returnsLast back := by
  induction front with
  | nil => rfl
  | cons node front ih =>
    rw [List.cons_append, returnsLast, returnsLast, List.any_cons]
    cases hreturn : node.isReturn with
    | true => simp
    | false => simpa using ih

theorem all_bindOperand {operator operand : Node} (h : operator.all isNormal = true)
    (hwaits : operator.awaitsOperand = true) (hoperand : operand.isOperand = true)
    (hnormal : operand.all isNormal = true) :
    (operator.bindOperand operand).all isNormal = true := by
  cases operator with
  | binary pos op lhs rhs =>
    rw [all, isNormal, Bool.and_eq_true, Bool.and_eq_true, Bool.and_eq_true] at h
    rw [bindOperand, all, isNormal, allOption, h.1.1, h.2.1, hnormal, Option.all_some, hoperand]
    rfl
  | negation pos rhs =>
    rw [bindOperand, all, isNormal, allOption, hnormal, Option.all_some, hoperand]
    rfl
  | _ => cases hwaits

/-- An operator that takes its operand stays where it may stand. -/
theorem mayPrecede_bindOperand {last operator : Node} (h : last.mayPrecede operator = true)
    (operand : Node) (hwaits : operator.awaitsOperand = true) :
    last.mayPrecede (operator.bindOperand operand) = true := by
  cases operator with
  | binary pos op lhs rhs => cases lhs <;> exact h
  | negation pos rhs => exact h
  | _ => cases hwaits

/-- A binary operator starts with a bracket where its left operand does. -/
theorem startsWithGroup_binary {lhs : Node} (h : lhs.isOperand = true) (pos : Position)
    (op : Connective) (rhs : Option Node) :
    (binary pos op lhs rhs).startsWithGroup = lhs.startsWithGroup := by
  cases lhs with
  | group | identifier | literal => rfl
  | _ => cases h

/-- What may follow a list does not start with a bracket behind a name. -/
theorem apart_of_mayPrecede {nodes : List Node} {node : Node}
    (h : ∀ last ∈ nodes.head?, last.mayPrecede node = true) :
    (nodes.head?.any isIdentifier && node.startsWithGroup) = false := by
  cases nodes with
  | nil => rfl
  | cons last nodes =>
    have hlast := h last rfl
    rw [mayPrecede, Bool.and_eq_true, Bool.not_eq_true'] at hlast
    exact hlast.1

theorem isOperand_of_awaitsOperand {node : Node} (h : node.awaitsOperand = true) :
    node.isOperand = false := by
  cases node with
  | binary | negation => rfl
  | _ => cases h

theorem returnsLast_append_singleton {nodes : List Node} {node : Node} :
    returnsLast (nodes ++ [node]) = true ↔
      returnsLast nodes = true ∧ (nodes.any isReturn = true → node.isOperand = true) := by
  rw [returnsLast_append]
  cases hreturn : nodes.any isReturn with
  | true => simp
  | false =>
    -- Without a return there is nothing to ask of the nodes.
    have hlast := returnsLast_append nodes []
    rw [hreturn, List.append_nil] at hlast
    rw [hlast]
    simp [returnsLast]

theorem isNormalList_iff {nodes : List Node} :
    isNormalList nodes = true ↔
      returnsLast nodes = true ∧ nodes.IsChain fun node next => node.mayPrecede next = true := by
  rw [isNormalList, Bool.and_eq_true, decide_eq_true_eq]

theorem allIn_append {q : Node → Bool} {front back : List Node} :
    allIn q (front ++ back) = true ↔ allIn q front = true ∧ allIn q back = true := by
  induction front with
  | nil => simp [allIn]
  | cons node front ih => rw [List.cons_append, allIn_cons, allIn_cons, ih, and_assoc]

end Node

namespace Forest

variable {node : Node} {nodes : List Node}

theorem isNormal_iff :
    isNormal nodes = true ↔ Node.returnsLast nodes = true ∧
      (nodes.IsChain fun node next => node.mayPrecede next = true) ∧
      Node.allIn Node.isNormal nodes = true := by
  rw [isNormal, Bool.and_eq_true, Node.isNormalList_iff, and_assoc]

/-- What it takes to put a node at the end of a list that is kept latest first. -/
theorem isNormal_reverse_cons :
    isNormal (node :: nodes).reverse = true ↔ isNormal nodes.reverse = true ∧
      node.all Node.isNormal = true ∧ (nodes.any Node.isReturn = true → node.isOperand = true) ∧
      ∀ last ∈ nodes.head?, last.mayPrecede node = true := by
  have hchain : (nodes.reverse ++ [node]).IsChain (fun node next => node.mayPrecede next = true) ↔
      nodes.reverse.IsChain (fun node next => node.mayPrecede next = true) ∧
        ∀ last ∈ nodes.head?, last.mayPrecede node = true := by
    rw [List.isChain_append, List.getLast?_reverse]
    simp
  rw [List.reverse_cons, isNormal_iff, isNormal_iff, Node.returnsLast_append_singleton, hchain,
    Node.allIn_append, Node.allIn_cons, List.any_reverse]
  simp only [Node.allIn, and_true]
  tauto

/-- Lists follow each other behind no return if the last node of one may precede the
first node of the other. -/
theorem isNormal_append {front back : List Node} (hfront : isNormal front = true)
    (hback : isNormal back = true) (hreturn : front.any Node.isReturn = false)
    (hmeet : ∀ last ∈ front.getLast?, ∀ first ∈ back.head?, last.mayPrecede first = true) :
    isNormal (front ++ back) = true := by
  rw [isNormal_iff] at hfront hback ⊢
  refine ⟨?_, hfront.2.1.append hback.2.1 hmeet, Node.allIn_append.2 ⟨hfront.2.2, hback.2.2⟩⟩
  rw [Node.returnsLast_append, hreturn]
  exact hback.1

end Forest

/-! ## The tokens of a text -/

namespace Token

/-- Whether a token is no identifier that is a keyword, and no assignment without
names. -/
def isPlain : Token → Bool
  | identifier name => !(["and", "or", "not", "return"].contains name)
  | assignment names => !names.isEmpty
  | _ => true

/-- Where a keyword is not found, no name is that keyword. -/
theorem toList_ne_of_keyword {text : List Char} {token : Token} {before after : Cursor}
    {word : String} (hkeyword : (do keyword text; return token : Scanner Token).run before = none)
    (hname : name.run before = some (word, after)) : word.toList ≠ text := by
  rintro rfl
  obtain ⟨hbefore, hend⟩ := eq_append_of_name hname
  obtain ⟨taken, cs⟩ := before
  cases hbefore
  have hread : Reads (do keyword word.toList; return token : Scanner Token) word.toList token
      after.rest := reads_bind_pure _ (reads_keyword hend)
  cases (hread taken).symm.trans hkeyword

/-- The names of an assignment are not empty. -/
theorem yields_assignmentHeader : Yields (fun token => token.isPlain = true) assignmentHeader := by
  refine yields_bind fun _ => yields_bind fun rest => ?_
  split
  · refine yields_bind fun names => yields_bind fun _ => yields_bind fun _ => ?_
    split
    · exact yields_nothing
    · next hne => exact yields_pure (by simpa [isPlain] using hne)
  · exact yields_nothing

/-- All readers in front of the one for identifiers give other tokens. -/
theorem yields_of_mem_take {reader : Scanner Token} (h : reader ∈ scanners.take 12) :
    Yields (fun token => token.isPlain = true) reader := by
  simp only [scanners, List.take_succ_cons, List.take_zero, List.mem_cons, List.not_mem_nil,
    or_false] at h
  rcases h with rfl | rfl | rfl | rfl | rfl | rfl | rfl | rfl | rfl | rfl | rfl | rfl
  · exact yields_bind fun _ => yields_bind fun _ => yields_pure rfl
  · exact yields_bind fun _ => yields_bind fun _ => yields_pure rfl
  · exact yields_bind fun _ => yields_pure rfl
  · exact yields_bind fun _ => yields_pure rfl
  · exact yields_bind fun _ => yields_pure rfl
  · exact yields_bind fun _ => yields_pure rfl
  · exact yields_bind fun _ => yields_pure rfl
  · exact yields_bind fun _ => yields_bind fun _ => yields_bind fun _ => yields_bind fun _ =>
      yields_bind fun _ => yields_bind fun _ => yields_bind fun _ => yields_bind fun _ =>
      yields_bind fun _ => yields_pure rfl
  · exact yields_bind fun _ => yields_pure rfl
  · exact yields_bind fun _ => yields_pure rfl
  · refine yields_bind fun _ => yields_bind fun gap => yields_bind fun rest => ?_
    dsimp only
    split
    · exact yields_nothing
    · exact yields_pure rfl
  · exact yields_assignmentHeader

/-- Keywords are tried before identifiers, so no identifier is a keyword. -/
theorem isPlain_of_scanAt {before after : Cursor} {token : Token}
    (h : scanAt before = some (token, after)) : token.isPlain = true := by
  have hsplit : scanAt before =
      ((scanners.take 12).findSome? fun reader => reader.run before).or
        ((scanners.drop 12).findSome? fun reader => reader.run before) := by
    rw [← List.findSome?_append, List.take_append_drop, scanAt]
  rw [hsplit, Option.or_eq_some_iff] at h
  rcases h with hfirst | ⟨hnone, hlast⟩
  · obtain ⟨reader, hreader, hrun⟩ := List.exists_of_findSome?_eq_some hfirst
    exact yields_of_mem_take hreader hrun
  · rw [List.findSome?_eq_none_iff] at hnone
    obtain ⟨reader, hreader, hrun⟩ := List.exists_of_findSome?_eq_some hlast
    simp only [scanners, List.drop_succ_cons, List.drop_zero, List.mem_cons, List.not_mem_nil,
      or_false] at hreader
    rcases hreader with rfl | rfl | rfl
    · simp only [StateT.run_bind, Option.bind_eq_bind, Option.bind_eq_some_iff] at hrun
      obtain ⟨⟨word, middle⟩, hname, hrun⟩ := hrun
      cases hrun
      have hand := toList_ne_of_keyword (hnone _ (List.mem_of_getElem? (i := 2) rfl)) hname
      have hor := toList_ne_of_keyword (hnone _ (List.mem_of_getElem? (i := 3) rfl)) hname
      have hnot := toList_ne_of_keyword (hnone _ (List.mem_of_getElem? (i := 4) rfl)) hname
      have hreturn := toList_ne_of_keyword (hnone _ (List.mem_of_getElem? (i := 9) rfl)) hname
      simp only [isPlain, Bool.not_eq_true', List.contains_eq_mem, decide_eq_false_iff_not,
        List.mem_cons, List.not_mem_nil, or_false]
      rintro (rfl | rfl | rfl | rfl)
      exacts [hand rfl, hor rfl, hnot rfl, hreturn rfl]
    all_goals
      simp only [StateT.run_bind, Option.bind_eq_bind, Option.bind_eq_some_iff] at hrun
      obtain ⟨found, hword, hrun⟩ := hrun
      cases hrun
      rfl

end Token

/-- Every token of a text is the one that is found in front of a rest of the text. -/
theorem exists_scan_of_mem_readFrom {inside : Nat} {pos : Position} {cs : List Char}
    {lexeme : Lexeme} (h : lexeme ∈ (readFrom inside pos cs).lexemes) :
    ∃ rest size, Token.scan rest = some (lexeme.token, size) := by
  induction cs generalizing inside pos with
  | nil =>
    cases inside <;> exact absurd h List.not_mem_nil
  | cons c cs ih =>
    cases inside with
    | succ inside => exact ih h
    | zero =>
      rw [readFrom] at h
      split at h
      · exact ih h
      · split at h
        · exact absurd h List.not_mem_nil
        · next token size hscan =>
          rcases List.mem_cons.1 h with rfl | hrest
          · exact ⟨_, _, hscan⟩
          · exact ih hrest

theorem Reading.isPlain_of_mem {text : String} {lexeme : Lexeme}
    (h : lexeme ∈ (ofText text).lexemes) : lexeme.token.isPlain = true := by
  obtain ⟨rest, size, hscan⟩ := exists_scan_of_mem_readFrom h
  obtain ⟨front, back, -, -, hat⟩ := Token.scan_eq_some hscan
  exact Token.isPlain_of_scanAt hat

/-! ## Scaffolds in normal form -/

/-- A bracket may be closed behind a list: a group does not follow a name, and the
name of an invocation is no word with a meaning. -/
def Wrapper.Fits (nodes : List Node) : Wrapper → Prop
  | group _ => nodes.head?.any Node.isIdentifier = false
  | invocation _ name => Node.wordsWithMeaning.contains name = false
  | block _ _ _ => True

/-- A bracket around nodes in normal form makes a node in normal form. -/
theorem Wrapper.all_close {wrapper : Wrapper} {inner outer : List Node} (hfits : wrapper.Fits outer)
    (hinner : Forest.isNormal inner = true) : (wrapper.close inner).all Node.isNormal = true := by
  rw [Forest.isNormal, Bool.and_eq_true] at hinner
  cases wrapper with
  | group pos =>
    rw [close, Node.all, Node.isNormal, hinner.1, hinner.2]
    rfl
  | invocation pos name =>
    change Node.wordsWithMeaning.contains name = false at hfits
    rw [close, Node.all, Node.isNormal, hfits, hinner.1, hinner.2]
    rfl
  | block pos name params =>
    rw [close, Node.all, Node.isNormal, Node.valuesAfterReturn_eq, hinner.1, hinner.2,
      beq_self_eq_true]
    rfl

namespace Scaffold

/-- What has been built is in normal form, apart from operators in open lists that
still wait for an operand. -/
structure Normal (s : Scaffold) : Prop where
  current : Forest.isNormal s.current.reverse = true
  outer : ∀ level ∈ s.outer, Forest.isNormal level.2.reverse = true ∧ level.1.Fits level.2

theorem normal_empty : empty.Normal := ⟨rfl, fun _ h => absurd h List.not_mem_nil⟩

variable {importer : Importer} {s s' : Scaffold} {lexeme : Lexeme} {node : Node}

/-! ## Adding a token -/

/-- Binding keeps normal form, so that only brackets behind names have to be kept out
when a node is put at the end of a list. -/
theorem normal_bindLast_push (h : s.Normal) (hclean : (s.push node).Clean)
    (hnode : node.all Node.isNormal = true)
    (hapart : (s.current.head?.any Node.isIdentifier && node.startsWithGroup) = false) :
    (s.push node).bindLast.Normal := by
  obtain ⟨-, -, hreturn⟩ := clean_push.1 hclean
  refine ⟨?_, by rw [outer_bindLast]; exact h.outer⟩
  have hcurrent := h.current
  obtain ⟨current, outer⟩ := s
  cases current with
  | nil => exact Forest.isNormal_reverse_cons.2 ⟨rfl, hnode, hreturn, by simp⟩
  | cons operator rest =>
    change (operator.isIdentifier && node.startsWithGroup) = false at hapart
    cases hbinds : node.isOperand && operator.awaitsOperand with
    | false =>
      have hplain : (push node ⟨operator :: rest, outer⟩).bindLast =
          ⟨node :: operator :: rest, outer⟩ := by
        change (if node.isOperand && operator.awaitsOperand then _ else _) = _
        rw [hbinds]
        rfl
      rw [hplain]
      refine Forest.isNormal_reverse_cons.2 ⟨hcurrent, hnode, hreturn, ?_⟩
      rintro _ ⟨⟩
      rw [Node.mayPrecede, hapart, Bool.and_comm operator.awaitsOperand, hbinds]
      rfl
    | true =>
      rw [Bool.and_eq_true] at hbinds
      have hbound : (push node ⟨operator :: rest, outer⟩).bindLast =
          ⟨operator.bindOperand node :: rest, outer⟩ := by
        change (if node.isOperand && operator.awaitsOperand then _ else _) = _
        rw [hbinds.1, hbinds.2]
        rfl
      rw [hbound]
      obtain ⟨hrest, hoperator, hoperatorReturn, hlast⟩ := Forest.isNormal_reverse_cons.1 hcurrent
      refine Forest.isNormal_reverse_cons.2 ⟨hrest,
        Node.all_bindOperand hoperator hbinds.2 hbinds.1 hnode, fun hany => ?_,
        fun last hmem => Node.mayPrecede_bindOperand (hlast last hmem) node hbinds.2⟩
      have hnot := Node.isOperand_of_awaitsOperand hbinds.2
      cases (hoperatorReturn hany).symm.trans hnot

/-- A node that its token makes, and that starts with no bracket, may be put at the end
of a list. -/
theorem normal_bindLast_leaf (h : s.Normal) (hclean : (s.push node).Clean)
    (hnode : node.all Node.isNormal = true) (hstarts : node.startsWithGroup = false) :
    (s.push node).bindLast.Normal :=
  normal_bindLast_push h hclean hnode (by rw [hstarts, Bool.and_false])

theorem normal_pushConnective {op : Connective} {pos : Position} (h : s.Normal)
    (hplace : s.pushConnective op pos = .ok s') (hclean : s'.Clean) : s'.bindLast.Normal := by
  obtain ⟨current, outer⟩ := s
  unfold pushConnective at hplace
  cases current with
  | nil => cases hplace
  | cons lhs rest =>
    dsimp only at hplace
    split at hplace
    · next hoperand =>
      cases hplace
      obtain ⟨hrest, hlhs, -, hlast⟩ := Forest.isNormal_reverse_cons.1 h.current
      refine normal_bindLast_push (s := ⟨rest, outer⟩) ⟨hrest, h.outer⟩ hclean ?_ ?_
      · rw [Node.all, Node.isNormal, hoperand, hlhs]
        rfl
      · rw [Node.startsWithGroup_binary hoperand]
        exact Node.apart_of_mayPrecede hlast
    · cases hplace

/-- A bracket that has been opened has an empty list inside it. -/
theorem normal_open {wrapper : Wrapper} {nodes : List Node} {outer : List (Wrapper × List Node)}
    (h : Normal ⟨nodes, outer⟩) (hfits : wrapper.Fits nodes) :
    Normal ⟨[], (wrapper, nodes) :: outer⟩ :=
  ⟨rfl, List.forall_mem_cons.2 ⟨⟨h.current, hfits⟩, h.outer⟩⟩

/-- A bracket behind a name takes the name for itself. -/
theorem normal_openGroup (h : s.Normal) (pos : Position) : (s.openGroup pos).Normal := by
  obtain ⟨current, outer⟩ := s
  cases current with
  | nil => exact normal_open h rfl
  | cons last rest =>
    cases last with
    | identifier namePos name =>
      obtain ⟨hrest, hname, -, -⟩ := Forest.isNormal_reverse_cons.1 h.current
      change (!Node.wordsWithMeaning.contains name) = true at hname
      rw [Bool.not_eq_true'] at hname
      exact normal_open ⟨hrest, h.outer⟩ hname
    | _ => exact normal_open h rfl

theorem normal_closeBracket {bracket : Bracket} {pos : Position} (h : s.Normal)
    (hplace : s.closeBracket bracket pos = .ok s') (hclean : s'.Clean) : s'.bindLast.Normal := by
  unfold closeBracket at hplace
  split at hplace
  · cases hplace
  · next wrapper nodes rest houter =>
    split at hplace
    · cases hplace
      have hlevels := h.outer
      rw [houter, List.forall_mem_cons] at hlevels
      obtain ⟨⟨hnodes, hfits⟩, hrest⟩ := hlevels
      refine normal_bindLast_push (s := ⟨nodes, rest⟩) ⟨hnodes, hrest⟩ hclean
        (Wrapper.all_close hfits h.current) ?_
      cases wrapper with
      | group pos =>
        change nodes.head?.any Node.isIdentifier = false at hfits
        change (nodes.head?.any Node.isIdentifier && _) = false
        rw [hfits, Bool.false_and]
      | invocation | block => exact Bool.and_false _
    · cases hplace

/-- The check of a list keeps reserved words out, and the other words with a meaning are
keywords. -/
theorem all_identifier {pos : Position} {name : String}
    (hplain : (Token.identifier name).isPlain = true)
    (hreserved : (Node.identifier pos name).reservedUse? = none) :
    (Node.identifier pos name).all Node.isNormal = true := by
  rw [Token.isPlain, Bool.not_eq_true', List.contains_eq_mem, decide_eq_false_iff_not] at hplain
  have hfree : name ∉ reservedWords := by
    intro hmem
    rw [Node.reservedUse?, if_pos (List.contains_iff_mem.2 hmem)] at hreserved
    cases hreserved
  change (!Node.wordsWithMeaning.contains name) = true
  rw [Bool.not_eq_true', List.contains_eq_mem, decide_eq_false_iff_not]
  simp only [reservedWords, Node.wordsWithMeaning, List.mem_cons, List.not_mem_nil, or_false]
    at hplain hfree ⊢
  tauto

theorem all_assignment {pos : Position} {names : List String}
    (hplain : (Token.assignment names).isPlain = true)
    (hreserved : (Node.assignment pos names).reservedUse? = none) :
    (Node.assignment pos names).all Node.isNormal = true := by
  rw [Node.reservedUse?, Option.map_eq_none_iff, List.find?_eq_none] at hreserved
  change (!names.isEmpty && names.all fun name => !reservedWords.contains name) = true
  rw [Bool.and_eq_true, List.all_eq_true]
  exact ⟨hplain, fun name hname => by simpa using hreserved name hname⟩

/-- Placing a token other than an import, and binding behind it, keeps normal form. -/
theorem normal_place (h : s.Normal) (hplain : lexeme.token.isPlain = true)
    (hplace : s.place lexeme = .ok s') (hclean : s'.Clean)
    (htoken : ∀ path, lexeme.token ≠ .imports path) : s'.bindLast.Normal := by
  obtain ⟨token, pos⟩ := lexeme
  cases token with
  | connective op => exact normal_pushConnective h hplace hclean
  | close bracket => exact normal_closeBracket h hplace hclean
  | imports path => exact absurd rfl (htoken path)
  | groupOpen =>
    cases hplace
    have hempty : (s.openGroup pos).bindLast = s.openGroup pos := by
      unfold openGroup
      split <;> rfl
    change (s.openGroup pos).bindLast.Normal
    rw [hempty]
    exact normal_openGroup h pos
  | blockOpen name params =>
    cases hplace
    exact normal_open h trivial
  | identifier name =>
    cases hplace
    exact normal_bindLast_leaf h hclean (all_identifier hplain (clean_push.1 hclean).2.1) rfl
  | assignment names =>
    cases hplace
    exact normal_bindLast_leaf h hclean (all_assignment hplain (clean_push.1 hclean).2.1) rfl
  | comment | negation | returns | literal =>
    cases hplace
    exact normal_bindLast_leaf h hclean rfl rfl

/-- In normal form no operand waits to be taken. -/
theorem bindLast_of_isNormal (h : Forest.isNormal s.current.reverse = true) : s.bindLast = s := by
  obtain ⟨current, outer⟩ := s
  obtain _ | ⟨operand, _ | ⟨operator, rest⟩⟩ := current
  · rfl
  · rfl
  · obtain ⟨-, -, -, hlast⟩ := Forest.isNormal_reverse_cons.1 h
    have hprecedes := hlast operator rfl
    rw [Node.mayPrecede, Bool.and_eq_true, Bool.not_eq_true', Bool.not_eq_true',
      Bool.and_comm operator.awaitsOperand] at hprecedes
    change (if operand.isOperand && operator.awaitsOperand then _ else _) = _
    rw [hprecedes.2]
    rfl

/-- Nodes that may stand in the place of an import: they are in normal form, and the
first of them may follow any node. -/
structure Spliceable (nodes : List Node) : Prop where
  normal : Forest.isNormal nodes = true
  first : ∀ first ∈ nodes.head?, ∀ last : Node, last.mayPrecede first = true

theorem isNormal_splice {nodes : List Node} (h : s.Normal)
    (hreturn : s.current.any Node.isReturn = false) (hnodes : Spliceable nodes) :
    Forest.isNormal (nodes.reverse ++ s.current).reverse = true := by
  rw [List.reverse_append, List.reverse_reverse]
  refine Forest.isNormal_append h.current hnodes.normal ?_ fun last _ first hfirst =>
    hnodes.first first hfirst last
  rw [List.any_reverse, hreturn]

theorem normal_splice {pos : Position} {path : String} {nodes : List Node} (h : s.Normal)
    (hclean : (s.push (.imports pos path)).Clean) (hnodes : Spliceable nodes) :
    Normal (bindLast ⟨nodes.reverse ++ s.current, s.outer⟩) := by
  have hreturn : s.current.any Node.isReturn = false := by
    rw [← Bool.not_eq_true]
    intro hany
    cases (clean_push.1 hclean).2.2 hany
  have hspliced := isNormal_splice h hreturn hnodes
  rw [bindLast_of_isNormal hspliced]
  exact ⟨hspliced, h.outer⟩

/-- Adding a token keeps normal form. -/
theorem normal_add
    (himporter : ∀ path nodes, importer path = .ok nodes → Spliceable nodes)
    (hplain : lexeme.token.isPlain = true) (h : s.Normal)
    (hadd : s.add importer lexeme = .ok s') : s'.Normal := by
  obtain ⟨placed, spliced, hplace, hcheck, hsplice, rfl⟩ := add_eq_ok_iff.1 hadd
  have hclean : placed.Clean := by
    unfold check at hcheck
    split at hcheck
    · cases hcheck
    · next hnone => exact hnone
  by_cases htoken : ∃ path, lexeme.token = .imports path
  · obtain ⟨path, htoken⟩ := htoken
    obtain ⟨token, pos⟩ := lexeme
    cases htoken
    cases hplace
    simp only [splice, push] at hsplice
    split at hsplice
    · next nodes himport =>
      cases hsplice
      exact normal_splice h hclean (himporter path nodes himport)
    · cases hsplice
  · rw [not_exists] at htoken
    rw [splice_place importer hplace htoken] at hsplice
    cases hsplice
    exact normal_place h hplain hplace hclean htoken

/-- Adding tokens one after the other keeps normal form. -/
theorem normal_foldlM
    (himporter : ∀ path nodes, importer path = .ok nodes → Spliceable nodes)
    {lexemes : List Lexeme} (hplain : ∀ lexeme ∈ lexemes, lexeme.token.isPlain = true)
    (h : s.Normal) (hfold : lexemes.foldlM (add importer) s = .ok s') : s'.Normal := by
  induction lexemes generalizing s with
  | nil =>
    cases hfold
    exact h
  | cons lexeme lexemes ih =>
    rw [List.foldlM_cons, bind_eq_ok_iff] at hfold
    obtain ⟨between, hfirst, hrest⟩ := hfold
    rw [List.forall_mem_cons] at hplain
    exact ih hplain.2 (normal_add himporter hplain.1 h hfirst) hrest

end Scaffold

/-! ## Whole texts -/

theorem Node.awaitsOperand_of_operandViolation? {node : Node}
    (h : node.operandViolation? = none) : node.awaitsOperand = false := by
  cases node with
  | binary pos op lhs rhs =>
    cases rhs with
    | none =>
      rw [operandViolation?, Option.or_eq_none_iff] at h
      cases h.2
    | some rhs => rfl
  | negation pos rhs =>
    cases rhs with
    | none => cases h
    | some rhs => rfl
  | _ => rfl

namespace Forest

variable {importer : Scaffold.Importer} {text : String} {nodes : List Node}

theorem isNormal_of_ofTextWith
    (himporter : ∀ path nodes, importer path = .ok nodes → Scaffold.Spliceable nodes)
    (h : ofTextWith importer text = .ok nodes) : isNormal nodes = true := by
  obtain ⟨s, pos, hfold, -, -, rfl⟩ := exists_scaffold_of_ofTextWith h
  exact (Scaffold.normal_foldlM himporter (fun _ => Reading.isPlain_of_mem) Scaffold.normal_empty
    hfold).current

/-- The end of a text shows that no operator waits for its operand. -/
theorem awaitsOperand_of_ofTextWith (h : ofTextWith importer text = .ok nodes) :
    ∀ node ∈ nodes, node.awaitsOperand = false := by
  simp only [ofTextWith, bind_eq_ok_iff] at h
  obtain ⟨s, hfold, h⟩ := h
  split at h
  · next pos hending =>
    unfold Scaffold.finish at h
    split at h
    · split at h
      · cases h
      · next hnone =>
        cases h
        rw [List.findSome?_eq_none_iff] at hnone
        exact fun node hnode => Node.awaitsOperand_of_operandViolation? (hnone node hnode)
    · cases h
  · cases h

end Forest

/-- A comment or a block may stand behind any node. -/
theorem Node.mayPrecede_declaration {node : Node} (h : node.isDeclaration = true) (last : Node) :
    last.mayPrecede node = true := by
  cases node with
  | comment | block => simp [mayPrecede, startsWithGroup, isOperand]
  | _ => cases h

namespace Forest

variable {origin : Origin} {path text : String} {nodes : List Node}

theorem exists_of_importCollection (h : importCollection origin path = .ok nodes) :
    ∃ collection ∈ Collection.all, collection.name = path ∧
      ofTextWith (fun _ => .error .unknownCollection) collection.text = .ok nodes := by
  unfold importCollection at h
  split at h
  · split at h
    · next collection hfind =>
      split at h
      · next collected hcollected =>
        cases h
        exact ⟨collection, List.mem_of_find?_eq_some hfind, eq_of_beq (List.find?_some hfind :),
          hcollected⟩
      · cases h
    · cases h
  · cases h

/-- A collection may stand in the place of its import: it consists of comments and blocks, and
its own text imports nothing. -/
theorem spliceable_of_importCollection (h : importCollection origin path = .ok nodes) :
    Scaffold.Spliceable nodes := by
  obtain ⟨collection, hmem, rfl, hcollected⟩ := exists_of_importCollection h
  have hrefused : ∀ (path : String) (nodes : List Node),
      (.error .unknownCollection : Except ImportRefusal (List Node)) = .ok nodes →
        Scaffold.Spliceable nodes := by
    intro path nodes hok
    cases hok
  refine ⟨isNormal_of_ofTextWith hrefused hcollected, fun first hfirst last => ?_⟩
  obtain ⟨declared, himport, hdeclared, -⟩ := exists_declarations origin hmem
  cases h.symm.trans himport
  have hdeclaration := List.all_eq_true.1 hdeclared first (List.mem_of_head? hfirst)
  exact Node.mayPrecede_declaration hdeclaration last

/-- The trees of a text are in normal form, at every depth, also those of the collections
that it imports, and at the top no operator lacks an operand. -/
theorem isNormal_ofText (origin : Origin) (text : String) (nodes : List Node)
    (h : ofText origin text = .ok nodes) :
    isNormal nodes = true ∧ ∀ node ∈ nodes, node.awaitsOperand = false :=
  ⟨isNormal_of_ofTextWith (fun _ _ => spliceable_of_importCollection) h,
    awaitsOperand_of_ofTextWith h⟩

/-- Inside brackets an operator may lack its operand, and a name may start like a word
with a meaning. -/
theorem isNormal_ofText_lacking :
    ∃ nodes,
      ofText .client "block f(order b) \x7b return (order or) b \x7d (not 1) (f(0 1))" = .ok nodes ∧
        isNormal nodes = true ∧ ∀ node ∈ nodes, node.awaitsOperand = false := by
  have hread : (ofText .client
      "block f(order b) \x7b return (order or) b \x7d (not 1) (f(0 1))").toOption.isSome := by
    decide +kernel
  cases hresult : ofText .client
      "block f(order b) \x7b return (order or) b \x7d (not 1) (f(0 1))" with
  | error fault =>
    rw [hresult] at hread
    cases hread
  | ok nodes => exact ⟨nodes, rfl, isNormal_ofText .client _ nodes hresult⟩

end Forest

end Gatework
