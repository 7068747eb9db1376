import Gatework.Forest

/-!
# Trees apart from positions

What a description is made of does not depend on where its tokens stand: if the
positions of tokens change, then those of nodes and faults do, and nothing else.

There are five groups.

* `unplaced`: nodes, brackets, scaffolds and faults with all positions at the start.
* A node is known from the node without positions, up to its position.
* The rules of a list do not look at positions.
* The steps of adding a token, one by one, and of adding tokens one after the other.
* `Forest.resume`: the trees of a whole text, from any point of it on.
-/

namespace Gatework

/-! ## Without positions -/

namespace Node

mutual

/-- A node with all positions at the start. -/
def unplaced : Node → Node
  | comment _ multiline text => comment .start multiline text
  | binary _ op lhs rhs => binary .start op lhs.unplaced (unplacedOption rhs)
  | negation _ rhs => negation .start (unplacedOption rhs)
  | group _ members => group .start (unplacedAll members)
  | invocation _ name args => invocation .start name (unplacedAll args)
  | block _ name params outputs body => block .start name params outputs (unplacedAll body)
  | returns _ => returns .start
  | imports _ path => imports .start path
  | assignment _ names => assignment .start names
  | identifier _ name => identifier .start name
  | literal _ value => literal .start value

/-- The same for a node that may be missing. -/
def unplacedOption : Option Node → Option Node
  | none => none
  | some node => some node.unplaced

/-- The same for a list of nodes. -/
def unplacedAll : List Node → List Node
  | [] => []
  | node :: rest => node.unplaced :: unplacedAll rest

end

theorem unplacedAll_eq_map (nodes : List Node) : unplacedAll nodes = nodes.map unplaced := by
  induction nodes with
  | nil => rfl
  | cons node nodes ih => rw [unplacedAll, ih, List.map_cons]

theorem unplacedAll_append (front back : List Node) :
    unplacedAll (front ++ back) = unplacedAll front ++ unplacedAll back := by
  rw [unplacedAll_eq_map, unplacedAll_eq_map, unplacedAll_eq_map, List.map_append]

theorem unplacedAll_reverse (nodes : List Node) :
    unplacedAll nodes.reverse = (unplacedAll nodes).reverse := by
  rw [unplacedAll_eq_map, unplacedAll_eq_map, List.map_reverse]

mutual

theorem unplaced_unplaced (node : Node) : node.unplaced.unplaced = node.unplaced := by
  match node with
  | binary pos op lhs rhs =>
    rw [unplaced, unplaced, unplaced_unplaced lhs, unplacedOption_unplacedOption rhs]
  | negation pos rhs => rw [unplaced, unplaced, unplacedOption_unplacedOption rhs]
  | group pos members => rw [unplaced, unplaced, unplacedAll_unplacedAll members]
  | invocation pos name args => rw [unplaced, unplaced, unplacedAll_unplacedAll args]
  | block pos name params outputs body => rw [unplaced, unplaced, unplacedAll_unplacedAll body]
  | comment _ _ _ | returns _ | imports _ _ | assignment _ _ | identifier _ _ | literal _ _ => rfl

theorem unplacedOption_unplacedOption (node : Option Node) :
    unplacedOption (unplacedOption node) = unplacedOption node := by
  match node with
  | none => rfl
  | some node => rw [unplacedOption, unplacedOption, unplaced_unplaced node]

theorem unplacedAll_unplacedAll (nodes : List Node) :
    unplacedAll (unplacedAll nodes) = unplacedAll nodes := by
  match nodes with
  | [] => rfl
  | node :: rest =>
    rw [unplacedAll, unplacedAll, unplaced_unplaced node, unplacedAll_unplacedAll rest]

end

/-! ## What a node is, apart from its position -/

section Shape

variable {node : Node} {name : String} {nodes all : List Node}

theorem exists_assignment_of_unplaced {names : List String}
    (h : node.unplaced = .assignment .start names) : ∃ pos, node = .assignment pos names := by
  cases node <;> cases h
  exact ⟨_, rfl⟩

theorem exists_invocation_of_unplaced (h : node.unplaced = .invocation .start name nodes) :
    ∃ pos args, node = .invocation pos name args ∧ unplacedAll args = nodes := by
  cases node <;> cases h
  exact ⟨_, _, rfl, rfl⟩

theorem exists_group_of_unplaced (h : node.unplaced = .group .start nodes) :
    ∃ pos members, node = .group pos members ∧ unplacedAll members = nodes := by
  cases node <;> cases h
  exact ⟨_, _, rfl, rfl⟩

theorem exists_identifier_of_unplaced (h : node.unplaced = .identifier .start name) :
    ∃ pos, node = .identifier pos name := by
  cases node <;> cases h
  exact ⟨_, rfl⟩

theorem exists_literal_of_unplaced {value : Bool} (h : node.unplaced = .literal .start value) :
    ∃ pos, node = .literal pos value := by
  cases node <;> cases h
  exact ⟨_, rfl⟩

theorem exists_cons_of_unplaced (h : unplacedAll all = node :: nodes) :
    ∃ first rest, all = first :: rest ∧ first.unplaced = node ∧ unplacedAll rest = nodes := by
  cases all <;> cases h
  exact ⟨_, _, rfl, rfl, rfl⟩

theorem eq_nil_of_unplaced (h : unplacedAll all = []) : all = [] := by
  cases all <;> cases h
  rfl

end Shape

end Node

/-- A bracket with its position at the start. -/
def Wrapper.unplaced : Wrapper → Wrapper
  | group _ => group .start
  | invocation _ name => invocation .start name
  | block _ name params => block .start name params

/-- A scaffold with all positions at the start. -/
def Scaffold.unplaced (s : Scaffold) : Scaffold :=
  ⟨Node.unplacedAll s.current,
    s.outer.map fun level => (level.1.unplaced, Node.unplacedAll level.2)⟩

/-- A fault with its position at the start. -/
def ForestError.unplaced : ForestError → ForestError
  | noToken _ excerpt => noToken .start excerpt
  | missingLeftOperand op _ => missingLeftOperand op .start
  | unopened _ => unopened .start
  | mismatched _ found opened => mismatched .start found opened
  | unclosed extra => unclosed extra
  | invalid _ violation => invalid .start violation
  | importRefused _ path reason => importRefused .start path reason

/-- What comes of a step, with all positions at the start. -/
def Forest.unplacedResult {α : Type} (unplaced : α → α) :
    Except ForestError α → Except ForestError α
  | .ok result => .ok (unplaced result)
  | .error fault => .error fault.unplaced

/-- Steps after steps that differ in positions only do so as well. -/
theorem Forest.unplacedResult_bind {α β : Type} (unplaced : α → α) {unplaced' : β → β}
    {x y : Except ForestError α} {f g : α → Except ForestError β}
    (hxy : unplacedResult unplaced x = unplacedResult unplaced y)
    (hfg : ∀ a b, unplaced a = unplaced b →
      unplacedResult unplaced' (f a) = unplacedResult unplaced' (g b)) :
    unplacedResult unplaced' (x >>= f) = unplacedResult unplaced' (y >>= g) := by
  cases x with
  | error fault =>
    cases y with
    | error other => exact congrArg Except.error (Except.error.inj hxy)
    | ok b => exact absurd hxy nofun
  | ok a =>
    cases y with
    | error other => exact absurd hxy nofun
    | ok b => exact hfg a b (Except.ok.inj hxy)

/-- A token at the start. -/
def Lexeme.unplaced (lexeme : Lexeme) : Lexeme := ⟨lexeme.token, .start⟩

/-! ## Rules of a list -/

namespace Node

@[simp] theorem kind_unplaced (node : Node) : node.unplaced.kind = node.kind := by
  cases node with
  | comment pos multiline text => cases multiline <;> rfl
  | _ => rfl

@[simp] theorem isReturn_unplaced (node : Node) : node.unplaced.isReturn = node.isReturn := by
  cases node <;> rfl

@[simp] theorem isOperand_unplaced (node : Node) : node.unplaced.isOperand = node.isOperand := by
  cases node <;> rfl

@[simp] theorem awaitsOperand_unplaced (node : Node) :
    node.unplaced.awaitsOperand = node.awaitsOperand := by
  cases node with
  | binary pos op lhs rhs => cases rhs <;> rfl
  | negation pos rhs => cases rhs <;> rfl
  | _ => rfl

theorem unplaced_bindOperand (operator operand : Node) :
    (operator.bindOperand operand).unplaced = operator.unplaced.bindOperand operand.unplaced := by
  cases operator <;> rfl

@[simp] theorem reservedUse?_unplaced (node : Node) :
    node.unplaced.reservedUse? = node.reservedUse? := by
  cases node <;> rfl

theorem valuesAfterReturn_unplacedAll (nodes : List Node) :
    valuesAfterReturn (unplacedAll nodes) = valuesAfterReturn nodes := by
  induction nodes with
  | nil => rfl
  | cons node nodes ih =>
    cases node with
    | returns pos =>
      change (unplacedAll nodes).length = nodes.length
      rw [unplacedAll_eq_map, List.length_map]
    | _ => exact ih

theorem operandViolation?_unplaced (node : Node) :
    node.unplaced.operandViolation? = node.operandViolation? := by
  have hoperand (kind : TokenKind) (side : Side) (operand : Option Node) :
      Gatework.operandViolation? kind side (unplacedOption operand) =
        Gatework.operandViolation? kind side operand := by
    cases operand with
    | none => rfl
    | some operand =>
      rw [unplacedOption, Gatework.operandViolation?, Gatework.operandViolation?,
        isOperand_unplaced]
  cases node with
  | binary pos op lhs rhs =>
    have hlhs := hoperand op.kind .left (some lhs)
    rw [unplacedOption] at hlhs
    rw [unplaced, operandViolation?, operandViolation?, hoperand, hlhs]
  | negation pos rhs => rw [unplaced, operandViolation?, operandViolation?, hoperand]
  | _ => rfl

end Node

theorem firstViolation?_unplacedAll (afterReturn : Bool) (nodes : List Node) :
    firstViolation? afterReturn (Node.unplacedAll nodes) = firstViolation? afterReturn nodes := by
  induction nodes generalizing afterReturn with
  | nil => rfl
  | cons node nodes ih =>
    rw [Node.unplacedAll, firstViolation?, firstViolation?, Node.reservedUse?_unplaced,
      Node.isOperand_unplaced, Node.kind_unplaced, Node.isReturn_unplaced, ih]

theorem Wrapper.unplaced_close (wrapper : Wrapper) (nodes : List Node) :
    (wrapper.close nodes).unplaced = wrapper.unplaced.close (Node.unplacedAll nodes) := by
  cases wrapper with
  | block pos name params =>
    rw [unplaced, close, close, Node.unplaced, Node.valuesAfterReturn_unplacedAll]
  | _ => rfl

theorem Wrapper.bracket_unplaced (wrapper : Wrapper) :
    wrapper.unplaced.bracket = wrapper.bracket := by
  cases wrapper <;> rfl

/-! ## Adding a token -/

namespace Scaffold

open Forest (unplacedResult unplacedResult_bind)

theorem unplaced_unplaced (s : Scaffold) : s.unplaced.unplaced = s.unplaced := by
  have hlevel (level : Wrapper × List Node) :
      (level.1.unplaced.unplaced, Node.unplacedAll (Node.unplacedAll level.2)) =
        (level.1.unplaced, Node.unplacedAll level.2) := by
    obtain ⟨wrapper, nodes⟩ := level
    rw [Node.unplacedAll_unplacedAll]
    cases wrapper <;> rfl
  rw [unplaced, unplaced, Node.unplacedAll_unplacedAll, List.map_map]
  exact congrArg (Scaffold.mk _) (List.map_congr_left fun level _ => hlevel level)

theorem place_unplaced (lexeme : Lexeme) (s : Scaffold) :
    s.unplaced.place lexeme.unplaced = unplacedResult unplaced (s.place lexeme) := by
  obtain ⟨token, pos⟩ := lexeme
  obtain ⟨current, outer⟩ := s
  cases token with
  | connective op =>
    cases current with
    | nil => rfl
    | cons lhs rest =>
      change pushConnective op .start ⟨lhs.unplaced :: Node.unplacedAll rest, _⟩ =
        unplacedResult unplaced (pushConnective op pos ⟨lhs :: rest, outer⟩)
      unfold pushConnective
      dsimp only
      rw [Node.isOperand_unplaced]
      split <;> rfl
  | groupOpen =>
    cases current with
    | nil => rfl
    | cons node rest => cases node <;> rfl
  | close bracket =>
    cases outer with
    | nil => rfl
    | cons level outer =>
      change closeBracket bracket .start ⟨Node.unplacedAll current, (level.1.unplaced, _) :: _⟩ =
        unplacedResult unplaced (closeBracket bracket pos ⟨current, level :: outer⟩)
      unfold closeBracket
      dsimp only
      rw [Wrapper.bracket_unplaced]
      split
      · rw [unplacedResult, unplaced, Node.unplacedAll, Wrapper.unplaced_close,
          Node.unplacedAll_reverse]
      · rfl
  | _ => rfl

theorem check_unplaced (pos : Position) (s : Scaffold) :
    s.unplaced.check .start = unplacedResult unplaced (s.check pos) := by
  unfold check
  rw [unplaced, ← Node.unplacedAll_reverse, firstViolation?_unplacedAll]
  split <;> rfl

theorem splice_unplaced (importer : Importer) (s : Scaffold) :
    unplacedResult unplaced (s.unplaced.splice importer) =
      unplacedResult unplaced (s.splice importer) := by
  have hkept : unplacedResult unplaced (.ok s.unplaced) = unplacedResult unplaced (.ok s) :=
    congrArg Except.ok s.unplaced_unplaced
  obtain ⟨current, outer⟩ := s
  cases current with
  | nil => exact hkept
  | cons node rest =>
    cases node with
    | imports pos path =>
      change unplacedResult unplaced (splice importer ⟨.imports .start path :: _, _⟩) =
        unplacedResult unplaced (splice importer ⟨.imports pos path :: rest, outer⟩)
      unfold splice
      dsimp only
      cases importer path with
      | error reason => rfl
      | ok nodes =>
        have houter := congrArg Scaffold.outer (unplaced_unplaced ⟨rest, outer⟩)
        change
          Except.ok (Scaffold.mk (Node.unplacedAll (nodes.reverse ++ Node.unplacedAll rest)) _) =
          Except.ok (Scaffold.mk (Node.unplacedAll (nodes.reverse ++ rest)) _)
        rw [Node.unplacedAll_append, Node.unplacedAll_append, Node.unplacedAll_unplacedAll]
        exact congrArg (fun outer => Except.ok (Scaffold.mk _ outer)) houter
    | _ => exact hkept

theorem bindLast_unplaced (s : Scaffold) : s.unplaced.bindLast = s.bindLast.unplaced := by
  obtain ⟨current, outer⟩ := s
  match current with
  | [] => rfl
  | [_] => rfl
  | operand :: operator :: rest =>
    change bindLast ⟨operand.unplaced :: operator.unplaced :: Node.unplacedAll rest, _⟩ =
      (bindLast ⟨operand :: operator :: rest, outer⟩).unplaced
    unfold bindLast
    dsimp only
    rw [Node.isOperand_unplaced, Node.awaitsOperand_unplaced, ← Node.unplaced_bindOperand]
    split <;> rfl

/-- Scaffolds that differ in positions only stay so when the same token is added. -/
theorem add_congr (importer : Importer) {s t : Scaffold} {lexeme other : Lexeme}
    (hs : s.unplaced = t.unplaced) (htoken : lexeme.token = other.token) :
    unplacedResult unplaced (s.add importer lexeme) =
      unplacedResult unplaced (t.add importer other) := by
  have hlexeme : lexeme.unplaced = other.unplaced := by
    rw [Lexeme.unplaced, Lexeme.unplaced, htoken]
  refine unplacedResult_bind unplaced ?_ fun s t hs => unplacedResult_bind unplaced ?_
    fun s t hs => unplacedResult_bind unplaced ?_ fun s t hs => ?_
  · rw [← place_unplaced, ← place_unplaced, hs, hlexeme]
  · rw [← check_unplaced, ← check_unplaced, hs]
  · rw [← splice_unplaced, ← splice_unplaced importer t, hs]
  · change Except.ok s.bindLast.unplaced = Except.ok t.bindLast.unplaced
    rw [← bindLast_unplaced, ← bindLast_unplaced, hs]

/-- The same for one token after the other. -/
theorem foldlM_congr (importer : Importer) {s t : Scaffold} {lexemes others : List Lexeme}
    (hs : s.unplaced = t.unplaced)
    (htokens : lexemes.map Lexeme.token = others.map Lexeme.token) :
    unplacedResult unplaced (lexemes.foldlM (add importer) s) =
      unplacedResult unplaced (others.foldlM (add importer) t) := by
  induction lexemes generalizing s t others with
  | nil =>
    cases List.map_eq_nil_iff.1 htokens.symm
    exact congrArg Except.ok hs
  | cons lexeme lexemes ih =>
    obtain ⟨other, others, rfl, htoken, htokens⟩ := List.map_eq_cons_iff.1 htokens.symm
    rw [List.foldlM_cons, List.foldlM_cons]
    exact unplacedResult_bind unplaced (add_congr importer hs htoken.symm)
      fun s t hs => ih hs htokens.symm

theorem finish_unplaced (pos : Position) (s : Scaffold) :
    s.unplaced.finish .start = unplacedResult Node.unplacedAll (s.finish pos) := by
  have hviolation : (Node.unplacedAll s.current.reverse).findSome? Node.operandViolation? =
      s.current.reverse.findSome? Node.operandViolation? := by
    rw [Node.unplacedAll_eq_map, List.findSome?_map]
    exact congrArg (List.findSome? · _) (funext Node.operandViolation?_unplaced)
  unfold finish
  rw [unplaced, List.isEmpty_map, ← Node.unplacedAll_reverse, hviolation]
  split
  · split <;> rfl
  · rw [List.length_map]
    rfl

end Scaffold

/-- Adds tokens that all stand at the start. -/
def Scaffold.addAll (importer : Importer) (tokens : List Token) (s : Scaffold) :
    Except ForestError Scaffold :=
  (tokens.map fun token => ⟨token, .start⟩).foldlM (add importer) s

theorem Lexeme.map_token_start (tokens : List Token) :
    (tokens.map fun token => (⟨token, .start⟩ : Lexeme)).map token = tokens := by
  rw [List.map_map]
  exact List.map_id tokens

/-- Wherever tokens stand, they build what they do at the start. -/
theorem Scaffold.unplaced_foldlM (importer : Importer) (s : Scaffold) {lexemes : List Lexeme}
    {tokens : List Token} (htokens : lexemes.map Lexeme.token = tokens) :
    Forest.unplacedResult unplaced (lexemes.foldlM (add importer) s) =
      Forest.unplacedResult unplaced (s.addAll importer tokens) :=
  foldlM_congr importer rfl (htokens.trans (Lexeme.map_token_start tokens).symm)

/-! ## Whole texts -/

/-- The end of a reading with its position at the start. -/
def Ending.unplaced : Ending → Ending
  | complete _ => complete .start
  | stuck _ excerpt => stuck .start excerpt

/-- Where a text begins changes the positions of its tokens only. -/
theorem readFrom_congr (inside : Nat) (pos pos' : Position) (cs : List Char) :
    (readFrom inside pos cs).lexemes.map Lexeme.token =
        (readFrom inside pos' cs).lexemes.map Lexeme.token ∧
      (readFrom inside pos cs).ending.unplaced = (readFrom inside pos' cs).ending.unplaced := by
  induction cs generalizing inside pos pos' with
  | nil => cases inside <;> exact ⟨rfl, rfl⟩
  | cons c cs ih =>
    cases inside with
    | succ inside => exact ih _ _ _
    | zero =>
      rw [readFrom, readFrom]
      split
      · exact ih _ _ _
      · split
        · exact ⟨rfl, rfl⟩
        · next token size _ =>
          obtain ⟨htokens, hending⟩ := ih (size - 1) (pos.advance c) (pos'.advance c)
          exact ⟨congrArg (token :: ·) htokens, hending⟩

namespace Forest

variable {importer : Scaffold.Importer} {s t : Scaffold}

/-- The trees of a text of which a scaffold has been built and a rest has been read. -/
def resume (importer : Scaffold.Importer) (s : Scaffold) (reading : Reading) :
    Except ForestError (List Node) := do
  let scaffold ← reading.lexemes.foldlM (Scaffold.add importer) s
  match reading.ending with
  | .complete pos => scaffold.finish pos
  | .stuck pos excerpt => .error (.noToken pos excerpt)

theorem ofTextWith_eq_resume (importer : Scaffold.Importer) (text : String) :
    ofTextWith importer text = resume importer .empty (Reading.ofText text) := rfl

/-- Behind tokens that have been added the trees are those of the rest. -/
theorem resume_append {front : List Lexeme} (h : front.foldlM (Scaffold.add importer) s = .ok t)
    (back : List Lexeme) (ending : Ending) :
    resume importer s ⟨front ++ back, ending⟩ = resume importer t ⟨back, ending⟩ := by
  unfold resume
  rw [List.foldlM_append, h]
  rfl

/-- Readings of the same tokens that end in the same way lead to the same trees, apart from
positions. -/
theorem resume_congr {reading other : Reading} (hs : s.unplaced = t.unplaced)
    (htokens : reading.lexemes.map Lexeme.token = other.lexemes.map Lexeme.token)
    (hending : reading.ending.unplaced = other.ending.unplaced) :
    unplacedResult Node.unplacedAll (resume importer s reading) =
      unplacedResult Node.unplacedAll (resume importer t other) := by
  refine unplacedResult_bind Scaffold.unplaced (Scaffold.foldlM_congr importer hs htokens)
    fun s t hs => ?_
  cases hread : reading.ending <;> cases hother : other.ending <;> rw [hread, hother] at hending
  case complete.complete =>
    dsimp only
    rw [← Scaffold.finish_unplaced, ← Scaffold.finish_unplaced, hs]
  case stuck.stuck =>
    dsimp only
    rw [unplacedResult, unplacedResult, ForestError.unplaced, ForestError.unplaced,
      (Ending.stuck.inj hending).2]
  all_goals exact absurd hending nofun

/-- The trees of a text that is read to its end are those of its tokens, wherever these
stand. -/
theorem unplaced_ofTextWith (importer : Scaffold.Importer) {text : String} {last : Position}
    {tokens : List Token} (htokens : (Reading.ofText text).lexemes.map Lexeme.token = tokens)
    (hending : (Reading.ofText text).ending = .complete last) :
    unplacedResult Node.unplacedAll (ofTextWith importer text) =
      unplacedResult Node.unplacedAll
        (Scaffold.empty.addAll importer tokens >>= Scaffold.finish .start) := by
  let other : Reading := ⟨tokens.map fun token => ⟨token, .start⟩, .complete .start⟩
  have hother : (Reading.ofText text).ending.unplaced = other.ending.unplaced := by
    rw [hending]
    rfl
  exact resume_congr rfl (htokens.trans (Lexeme.map_token_start tokens).symm) hother

end Forest

end Gatework
