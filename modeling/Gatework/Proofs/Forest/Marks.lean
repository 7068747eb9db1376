import Gatework.Forest

/-!
# Tokens and positions in trees

A node keeps the position of the token that makes it, wherever it is moved later: into an
operator as its operand, or into brackets.  Faults have the position of the token at which they
are found.

There are four groups.

* `Mark` is a token of a tree with the position that the tree has for it.  The marks of a node
  and of a scaffold come in the order of the text.
* Placing a token puts its mark behind the marks of the scaffold (`marks_place`).
* Adding a token does the same, an import apart (`marks_add`).
* The position of a fault: `pos?_of_add`, and `exists_of_foldlM_error` for tokens that are added
  one after the other.
-/

namespace Gatework

/-- Two computations, one after the other, succeed if each does. -/
theorem bind_eq_ok_iff {ε α β : Type} {x : Except ε α} {f : α → Except ε β} {b : β} :
    x >>= f = .ok b ↔ ∃ a, x = .ok a ∧ f a = .ok b := by
  cases x <;> simp [bind, Except.bind]

theorem bind_eq_error_iff {ε α β : Type} {x : Except ε α} {f : α → Except ε β} {error : ε} :
    x >>= f = .error error ↔ x = .error error ∨ ∃ a, x = .ok a ∧ f a = .error error := by
  cases x <;> simp [bind, Except.bind]

/-! ## Marks of nodes and scaffolds -/

/-- A token of a tree, with its position if the tree has one for it. -/
structure Mark where
  token : Token
  pos? : Option Position

/-- A mark is that of a token in a text.  Positions are kept of all tokens but closing brackets,
and the opening bracket of an invocation. -/
inductive Mark.Fits : Mark → Lexeme → Prop
  | placed (token : Token) (pos : Position) : Fits ⟨token, some pos⟩ ⟨token, pos⟩
  | invoking (pos : Position) : Fits ⟨.groupOpen, none⟩ ⟨.groupOpen, pos⟩
  | closing (bracket : Bracket) (pos : Position) : Fits ⟨.close bracket, none⟩ ⟨.close bracket, pos⟩

theorem Mark.Fits.token_eq {mark : Mark} {lexeme : Lexeme} (h : mark.Fits lexeme) :
    mark.token = lexeme.token := by
  cases h <;> rfl

namespace Node

mutual

/-- The marks of a node. -/
def marks : Node → List Mark
  | comment pos multiline text => [⟨.comment multiline text, pos⟩]
  | binary pos op lhs rhs => lhs.marks ++ ⟨.connective op, pos⟩ :: marksOption rhs
  | negation pos rhs => ⟨.negation, pos⟩ :: marksOption rhs
  | group pos members => ⟨.groupOpen, pos⟩ :: (marksAll members ++ [⟨.close .round, none⟩])
  | invocation pos name args =>
    ⟨.identifier name, pos⟩ :: ⟨.groupOpen, none⟩ :: (marksAll args ++ [⟨.close .round, none⟩])
  | block pos name params _ body =>
    ⟨.blockOpen name params, pos⟩ :: (marksAll body ++ [⟨.close .brace, none⟩])
  | returns pos => [⟨.returns, pos⟩]
  | imports pos path => [⟨.imports path, pos⟩]
  | assignment pos names => [⟨.assignment names, pos⟩]
  | identifier pos name => [⟨.identifier name, pos⟩]
  | literal pos value => [⟨.literal value, pos⟩]

/-- The marks of a node that may be missing. -/
def marksOption : Option Node → List Mark
  | none => []
  | some node => node.marks

/-- The marks of a list of nodes. -/
def marksAll : List Node → List Mark
  | [] => []
  | node :: rest => node.marks ++ marksAll rest

end

@[simp] theorem marksAll_append (front back : List Node) :
    marksAll (front ++ back) = marksAll front ++ marksAll back := by
  induction front with
  | nil => rfl
  | cons node front ih => rw [List.cons_append, marksAll, ih, marksAll, List.append_assoc]

/-- The marks of a list that is kept latest first. -/
theorem marksAll_reverse_cons (node : Node) (nodes : List Node) :
    marksAll (node :: nodes).reverse = marksAll nodes.reverse ++ node.marks := by
  rw [List.reverse_cons, marksAll_append, marksAll, marksAll, List.append_nil]

/-- An operator has the marks of its operand behind its own. -/
theorem marks_bindOperand {operator : Node} (h : operator.awaitsOperand = true) (operand : Node) :
    (operator.bindOperand operand).marks = operator.marks ++ operand.marks := by
  match operator, h with
  | .binary _ _ _ none, _ => simp [bindOperand, marks, marksOption]
  | .negation _ none, _ => simp [bindOperand, marks, marksOption]

end Node

/-- The marks that open a bracket. -/
def Wrapper.openingMarks : Wrapper → List Mark
  | group pos => [⟨.groupOpen, pos⟩]
  | invocation pos name => [⟨.identifier name, pos⟩, ⟨.groupOpen, none⟩]
  | block pos name params => [⟨.blockOpen name params, pos⟩]

theorem Wrapper.marks_close (wrapper : Wrapper) (nodes : List Node) :
    (wrapper.close nodes).marks =
      wrapper.openingMarks ++ Node.marksAll nodes ++ [⟨.close wrapper.bracket, none⟩] := by
  cases wrapper <;> simp [close, openingMarks, bracket, Node.marks]

namespace Scaffold

/-- The marks of open brackets and of the lists in which they stand.  The brackets come
innermost first. -/
def outerMarks : List (Wrapper × List Node) → List Mark
  | [] => []
  | (wrapper, nodes) :: outer =>
    outerMarks outer ++ Node.marksAll nodes.reverse ++ wrapper.openingMarks

/-- The marks of a scaffold. -/
def marks (s : Scaffold) : List Mark := outerMarks s.outer ++ Node.marksAll s.current.reverse

variable {s s' : Scaffold} {lexeme : Lexeme}

/-! ## Placing a token -/

theorem marks_push (node : Node) (s : Scaffold) :
    (s.push node).marks = s.marks ++ node.marks := by
  rw [marks, push, Node.marksAll_reverse_cons, ← List.append_assoc]
  rfl

/-- An operator comes after its left operand. -/
theorem marks_pushConnective {op : Connective} {pos : Position}
    (h : s.pushConnective op pos = .ok s') : s'.marks = s.marks ++ [⟨.connective op, pos⟩] := by
  unfold pushConnective at h
  split at h
  · next lhs rest hcurrent =>
    split at h
    · cases h
      simp [marks, hcurrent, Node.marks, Node.marksOption, Node.marksAll]
    · exact absurd h nofun
  · exact absurd h nofun

/-- A bracket that takes a name away from the list around it keeps the name's place. -/
theorem marks_openGroup (pos : Position) (s : Scaffold) :
    ∃ mark, mark.Fits ⟨.groupOpen, pos⟩ ∧ (s.openGroup pos).marks = s.marks ++ [mark] := by
  unfold openGroup
  split
  · next namePos name rest hcurrent =>
    refine ⟨_, .invoking pos, ?_⟩
    simp [marks, outerMarks, hcurrent, Node.marks, Node.marksAll, Wrapper.openingMarks]
  · refine ⟨_, .placed _ pos, ?_⟩
    simp [marks, outerMarks, Node.marksAll, Wrapper.openingMarks]

theorem marks_closeBracket {bracket : Bracket} {pos : Position}
    (h : s.closeBracket bracket pos = .ok s') : s'.marks = s.marks ++ [⟨.close bracket, none⟩] := by
  unfold closeBracket at h
  split at h
  · exact absurd h nofun
  · next wrapper nodes rest houter =>
    split at h
    · next hbracket =>
      cases h
      rw [marks, Node.marksAll_reverse_cons, Wrapper.marks_close, hbracket, marks, houter,
        outerMarks]
      simp
    · exact absurd h nofun

theorem marks_place (h : s.place lexeme = .ok s') :
    ∃ mark, mark.Fits lexeme ∧ s'.marks = s.marks ++ [mark] := by
  obtain ⟨token, pos⟩ := lexeme
  cases token with
  | connective op => exact ⟨_, .placed _ pos, marks_pushConnective h⟩
  | groupOpen =>
    cases h
    exact marks_openGroup pos s
  | blockOpen name params =>
    cases h
    refine ⟨_, .placed _ pos, ?_⟩
    simp [openBlock, marks, outerMarks, Node.marksAll, Wrapper.openingMarks]
  | close bracket => exact ⟨_, .closing bracket pos, marks_closeBracket h⟩
  | comment | negation | returns | imports | assignment | identifier | literal =>
    cases h
    exact ⟨_, .placed _ pos, marks_push _ s⟩

/-! ## Adding a token -/

theorem marks_bindLast (s : Scaffold) : s.bindLast.marks = s.marks := by
  unfold bindLast
  split
  · next operand operator rest hcurrent =>
    split
    · next hbinds =>
      rw [Bool.and_eq_true] at hbinds
      rw [marks, Node.marksAll_reverse_cons, Node.marks_bindOperand hbinds.2, marks, hcurrent,
        Node.marksAll_reverse_cons, Node.marksAll_reverse_cons, List.append_assoc]
    · rfl
  · rfl

theorem eq_of_check {pos : Position} (h : s.check pos = .ok s') : s' = s := by
  unfold check at h
  split at h
  · exact absurd h nofun
  · exact (Except.ok.inj h).symm

/-- The last node after a token other than an import is no import. -/
theorem current_ne_of_place (h : s.place lexeme = .ok s')
    (htoken : ∀ path, lexeme.token ≠ .imports path) (pos : Position) (path : String)
    (rest : List Node) : s'.current ≠ .imports pos path :: rest := by
  intro hcurrent
  obtain ⟨token, tokenPos⟩ := lexeme
  cases token with
  | connective op =>
    change s.pushConnective op tokenPos = .ok s' at h
    unfold pushConnective at h
    split at h
    · split at h
      · cases h
        exact absurd hcurrent nofun
      · exact absurd h nofun
    · exact absurd h nofun
  | groupOpen =>
    cases h
    change (s.openGroup tokenPos).current = _ at hcurrent
    unfold openGroup at hcurrent
    split at hcurrent <;> exact absurd hcurrent nofun
  | close bracket =>
    change s.closeBracket bracket tokenPos = .ok s' at h
    unfold closeBracket at h
    split at h
    · exact absurd h nofun
    · next wrapper nodes outer houter =>
      split at h
      · cases h
        have hclosed := (List.cons.inj hcurrent).1
        cases wrapper <;> exact absurd hclosed nofun
      · exact absurd h nofun
  | imports path' => exact htoken path' rfl
  | comment | negation | blockOpen | returns | assignment | identifier | literal =>
    cases h
    exact absurd hcurrent nofun

theorem splice_place (importer : Importer) (h : s.place lexeme = .ok s')
    (htoken : ∀ path, lexeme.token ≠ .imports path) : s'.splice importer = .ok s' := by
  unfold splice
  split
  · next pos path rest hcurrent =>
    exact absurd hcurrent (current_ne_of_place h htoken pos path rest)
  · rfl

/-- An import that has been placed is replaced by its nodes, or refused. -/
theorem splice_place_imports {pos : Position} {path : String} (importer : Importer)
    (h : s.place ⟨.imports path, pos⟩ = .ok s') :
    s'.splice importer = match importer path with
      | .ok nodes => .ok ⟨nodes.reverse ++ s.current, s.outer⟩
      | .error reason => .error (.importRefused pos path reason) := by
  cases h
  rfl

/-- The steps of adding a token. -/
theorem add_eq_ok_iff {importer : Importer} :
    s.add importer lexeme = .ok s' ↔ ∃ placed spliced, s.place lexeme = .ok placed ∧
      placed.check lexeme.pos = .ok placed ∧ placed.splice importer = .ok spliced ∧
      s' = spliced.bindLast := by
  simp only [add, bind_eq_ok_iff]
  constructor
  · rintro ⟨placed, hplace, checked, hcheck, spliced, hsplice, hbind⟩
    cases eq_of_check hcheck
    exact ⟨placed, spliced, hplace, hcheck, hsplice, (Except.ok.inj hbind).symm⟩
  · rintro ⟨placed, spliced, hplace, hcheck, hsplice, rfl⟩
    exact ⟨placed, hplace, placed, hcheck, spliced, hsplice, rfl⟩

/-- The marks that adding a token brings: its own, or those of the nodes that an import stands
for. -/
inductive Brings (importer : Importer) (lexeme : Lexeme) : List Mark → Prop
  | token {mark : Mark} (hfits : mark.Fits lexeme) (hno : ∀ path, lexeme.token ≠ .imports path) :
      Brings importer lexeme [mark]
  | collection {path : String} {nodes : List Node} (htoken : lexeme.token = .imports path)
      (himport : importer path = .ok nodes) : Brings importer lexeme (Node.marksAll nodes)

theorem marks_add {importer : Importer} (h : s.add importer lexeme = .ok s') :
    ∃ brought, Brings importer lexeme brought ∧ s'.marks = s.marks ++ brought := by
  obtain ⟨placed, spliced, hplace, -, hsplice, rfl⟩ := add_eq_ok_iff.1 h
  rw [marks_bindLast]
  by_cases htoken : ∃ path, lexeme.token = .imports path
  · obtain ⟨path, htoken⟩ := htoken
    obtain ⟨token, pos⟩ := lexeme
    cases htoken
    rw [splice_place_imports importer hplace] at hsplice
    cases himport : importer path with
    | error reason =>
      rw [himport] at hsplice
      cases hsplice
    | ok nodes =>
      rw [himport] at hsplice
      cases hsplice
      exact ⟨_, .collection rfl himport, by simp [marks]⟩
  · rw [not_exists] at htoken
    rw [splice_place importer hplace htoken] at hsplice
    cases hsplice
    obtain ⟨mark, hfits, hmarks⟩ := marks_place hplace
    exact ⟨_, .token hfits htoken, hmarks⟩

end Scaffold

/-! ## Faults -/

/-- The position of a fault.  Brackets that are left open have none. -/
def ForestError.pos? : ForestError → Option Position
  | noToken pos _ | missingLeftOperand _ pos | unopened pos | mismatched pos _ _ | invalid pos _
  | importRefused pos _ _ => some pos
  | unclosed _ => none

namespace Scaffold

variable {s : Scaffold} {lexeme : Lexeme} {fault : ForestError} {importer : Importer}

theorem pos?_of_place (h : s.place lexeme = .error fault) : fault.pos? = some lexeme.pos := by
  obtain ⟨token, pos⟩ := lexeme
  cases token with
  | connective op =>
    change s.pushConnective op pos = _ at h
    unfold pushConnective at h
    split at h
    · split at h <;> cases h
      rfl
    · cases h
      rfl
  | close bracket =>
    change s.closeBracket bracket pos = _ at h
    unfold closeBracket at h
    split at h
    · cases h
      rfl
    · split at h <;> cases h
      rfl
  | _ => exact absurd h nofun

theorem pos?_of_check {pos : Position} (h : s.check pos = .error fault) :
    fault.pos? = some pos := by
  unfold check at h
  split at h <;> cases h
  rfl

/-- An import that is refused is the token that has just been placed. -/
theorem pos?_of_splice {placed : Scaffold} (hplace : s.place lexeme = .ok placed)
    (h : placed.splice importer = .error fault) : fault.pos? = some lexeme.pos := by
  by_cases htoken : ∃ path, lexeme.token = .imports path
  · obtain ⟨path, htoken⟩ := htoken
    obtain ⟨token, pos⟩ := lexeme
    cases htoken
    rw [splice_place_imports importer hplace] at h
    split at h <;> cases h
    rfl
  · rw [not_exists] at htoken
    rw [splice_place importer hplace htoken] at h
    cases h

/-- A token that cannot be added is the place of the fault. -/
theorem pos?_of_add (h : s.add importer lexeme = .error fault) : fault.pos? = some lexeme.pos := by
  simp only [add, bind_eq_error_iff] at h
  rcases h with hplace | ⟨placed, hplace, hcheck | ⟨checked, hchecked, hrest⟩⟩
  · exact pos?_of_place hplace
  · exact pos?_of_check hcheck
  · cases eq_of_check hchecked
    rcases hrest with hsplice | ⟨spliced, -, hpure⟩
    · exact pos?_of_splice hplace hsplice
    · exact absurd hpure nofun

/-- Of tokens that are added one after the other, one is the first that cannot be added. -/
theorem exists_of_foldlM_error {lexemes : List Lexeme}
    (h : lexemes.foldlM (add importer) s = .error fault) :
    ∃ front lexeme back between, lexemes = front ++ lexeme :: back ∧
      front.foldlM (add importer) s = .ok between ∧ between.add importer lexeme = .error fault := by
  induction lexemes generalizing s with
  | nil => exact absurd h nofun
  | cons first lexemes ih =>
    rw [List.foldlM_cons, bind_eq_error_iff] at h
    rcases h with hfirst | ⟨next, hfirst, hrest⟩
    · exact ⟨[], first, lexemes, s, rfl, rfl, hfirst⟩
    · obtain ⟨front, lexeme, back, between, rfl, hfront, hlexeme⟩ := ih hrest
      refine ⟨first :: front, lexeme, back, between, rfl, ?_, hlexeme⟩
      rw [List.foldlM_cons, hfirst]
      exact hfront

end Scaffold

end Gatework
