import Gatework.Proofs.Forest.Marks
import Mathlib.Data.List.Infix

/-!
# The tokens of trees

No token of a text is lost, told twice or moved: the tokens of the trees are those
of the text, in the same order, with the tokens of a collection in the place of
its import.

There are four groups.

* The tokens of a node, and of a scaffold: those of the brackets that are open and
  of the lists in which they stand, from the outermost one on.  They are those of its
  marks.
* Adding a token puts it behind the tokens of the scaffold, an import apart
  (`tokens_add`), and so does adding one token after the other (`tokens_foldlM`).
* The brackets that tokens leave open are those of the scaffold.
* `tokens_ofText` collects what this says about whole texts.
-/

namespace Gatework

/-! ## Tokens of nodes and scaffolds -/

namespace Node

mutual

/-- The tokens of a node, in the order of the text. -/
def tokens : Node → List Token
  | comment _ multiline text => [.comment multiline text]
  | binary _ op lhs rhs => lhs.tokens ++ .connective op :: tokensOption rhs
  | negation _ rhs => .negation :: tokensOption rhs
  | group _ members => .groupOpen :: (tokensAll members ++ [.close .round])
  | invocation _ name args =>
    .identifier name :: .groupOpen :: (tokensAll args ++ [.close .round])
  | block _ name params _ body => .blockOpen name params :: (tokensAll body ++ [.close .brace])
  | returns _ => [.returns]
  | imports _ path => [.imports path]
  | assignment _ names => [.assignment names]
  | identifier _ name => [.identifier name]
  | literal _ value => [.literal value]

/-- The tokens of a node that may be missing. -/
def tokensOption : Option Node → List Token
  | none => []
  | some node => node.tokens

/-- The tokens of a list of nodes. -/
def tokensAll : List Node → List Token
  | [] => []
  | node :: rest => node.tokens ++ tokensAll rest

end

@[simp] theorem tokensAll_append (front back : List Node) :
    tokensAll (front ++ back) = tokensAll front ++ tokensAll back := by
  induction front with
  | nil => rfl
  | cons node front ih => rw [List.cons_append, tokensAll, ih, tokensAll, List.append_assoc]

mutual

theorem map_token_marks (node : Node) : node.marks.map Mark.token = node.tokens := by
  match node with
  | binary pos op lhs rhs =>
    rw [marks, tokens, List.map_append, List.map_cons, map_token_marks lhs,
      map_token_marksOption rhs]
  | negation pos rhs => rw [marks, tokens, List.map_cons, map_token_marksOption rhs]
  | group pos members =>
    rw [marks, tokens, List.map_cons, List.map_append, map_token_marksAll members]
    rfl
  | invocation pos name args =>
    rw [marks, tokens, List.map_cons, List.map_cons, List.map_append, map_token_marksAll args]
    rfl
  | block pos name params outputs body =>
    rw [marks, tokens, List.map_cons, List.map_append, map_token_marksAll body]
    rfl
  | comment _ _ _ | returns _ | imports _ _ | assignment _ _ | identifier _ _ | literal _ _ => rfl

theorem map_token_marksOption (node : Option Node) :
    (marksOption node).map Mark.token = tokensOption node := by
  match node with
  | none => rfl
  | some node => rw [marksOption, tokensOption, map_token_marks node]

theorem map_token_marksAll (nodes : List Node) :
    (marksAll nodes).map Mark.token = tokensAll nodes := by
  match nodes with
  | [] => rfl
  | node :: rest =>
    rw [marksAll, tokensAll, List.map_append, map_token_marks node, map_token_marksAll rest]

end

end Node

/-- The tokens that open a bracket. -/
def Wrapper.opening : Wrapper → List Token
  | group _ => [.groupOpen]
  | invocation _ name => [.identifier name, .groupOpen]
  | block _ name params => [.blockOpen name params]

theorem Wrapper.map_token_openingMarks (wrapper : Wrapper) :
    wrapper.openingMarks.map Mark.token = wrapper.opening := by
  cases wrapper <;> rfl

namespace Scaffold

/-- The tokens of open brackets and of the lists in which they stand.  The brackets
come innermost first. -/
def outerTokens : List (Wrapper × List Node) → List Token
  | [] => []
  | (wrapper, nodes) :: outer =>
    outerTokens outer ++ Node.tokensAll nodes.reverse ++ wrapper.opening

/-- The tokens of a scaffold. -/
def tokens (s : Scaffold) : List Token :=
  outerTokens s.outer ++ Node.tokensAll s.current.reverse

theorem map_token_outerMarks (outer : List (Wrapper × List Node)) :
    (outerMarks outer).map Mark.token = outerTokens outer := by
  induction outer with
  | nil => rfl
  | cons level outer ih =>
    rw [outerMarks, outerTokens, List.map_append, List.map_append, ih, Node.map_token_marksAll,
      Wrapper.map_token_openingMarks]

theorem map_token_marks (s : Scaffold) : s.marks.map Mark.token = s.tokens := by
  rw [marks, tokens, List.map_append, map_token_outerMarks, Node.map_token_marksAll]

end Scaffold

/-! ## Adding tokens -/

/-- The tokens that an importer puts in the place of a token. -/
def Token.spliced (collected : String → List Token) : Token → List Token
  | imports path => collected path
  | token => [token]

theorem Token.spliced_of_ne {collected : String → List Token} {token : Token}
    (h : ∀ path, token ≠ .imports path) : token.spliced collected = [token] := by
  cases token with
  | imports path => exact absurd rfl (h path)
  | _ => rfl

namespace Scaffold

variable {s s' : Scaffold} {lexeme : Lexeme} {importer : Importer}
  {collected : String → List Token}

/-- Adding a token puts it behind the others, or what its import brings. -/
theorem tokens_add
    (himporter : ∀ path nodes, importer path = .ok nodes → Node.tokensAll nodes = collected path)
    (h : s.add importer lexeme = .ok s') :
    s'.tokens = s.tokens ++ lexeme.token.spliced collected := by
  obtain ⟨brought, hbrings, hmarks⟩ := marks_add h
  have hbrought : brought.map Mark.token = lexeme.token.spliced collected := by
    cases hbrings with
    | token hfits hno => rw [Token.spliced_of_ne hno, ← hfits.token_eq, List.map_singleton]
    | collection htoken himport =>
      rw [Node.map_token_marksAll, himporter _ _ himport, htoken, Token.spliced]
  rw [← map_token_marks, ← map_token_marks, hmarks, List.map_append, hbrought]

/-- Adding tokens one after the other loses, doubles and moves none. -/
theorem tokens_foldlM
    (himporter : ∀ path nodes, importer path = .ok nodes → Node.tokensAll nodes = collected path)
    {lexemes : List Lexeme} (h : lexemes.foldlM (add importer) s = .ok s') :
    s'.tokens = s.tokens ++ (lexemes.map Lexeme.token).flatMap (Token.spliced collected) := by
  induction lexemes generalizing s with
  | nil =>
    cases h
    exact (List.append_nil _).symm
  | cons lexeme lexemes ih =>
    rw [List.foldlM_cons, bind_eq_ok_iff] at h
    obtain ⟨between, hfirst, hrest⟩ := h
    rw [ih hrest, tokens_add himporter hfirst, List.append_assoc]
    rfl

end Scaffold

/-! ## Open brackets -/

/-- The brackets that are open after a token, innermost first, or nothing if it
closes no bracket of its kind. -/
def Token.brackets (brackets : List Bracket) : Token → Option (List Bracket)
  | groupOpen => some (.round :: brackets)
  | blockOpen _ _ => some (.brace :: brackets)
  | close bracket =>
    match brackets with
    | [] => none
    | innermost :: outer => if innermost = bracket then some outer else none
  | _ => some brackets

/-- The number of tokens that open a bracket. -/
def Token.opening (tokens : List Token) : Nat :=
  tokens.countP fun token => token.kind.role = .wrapperStart

/-- The number of tokens that close a bracket. -/
def Token.closing (tokens : List Token) : Nat :=
  tokens.countP fun token => token.kind.role = .wrapperEnd

/-- As many brackets are open as have been opened and not closed. -/
theorem Token.length_add_opening {tokens : List Token} {brackets after : List Bracket}
    (h : tokens.foldlM Token.brackets brackets = some after) :
    brackets.length + opening tokens = after.length + closing tokens := by
  induction tokens generalizing brackets with
  | nil =>
    cases h
    rfl
  | cons token tokens ih =>
    rw [List.foldlM_cons, Option.bind_eq_bind, Option.bind_eq_some_iff] at h
    obtain ⟨between, hfirst, hrest⟩ := h
    have hcount := ih hrest
    rw [opening, closing, List.countP_cons, List.countP_cons]
    rw [opening, closing] at hcount
    have hstep : brackets.length + (if token.kind.role = .wrapperStart then 1 else 0) =
        between.length + if token.kind.role = .wrapperEnd then 1 else 0 := by
      cases token with
      | groupOpen | blockOpen =>
        cases hfirst
        rfl
      | close bracket =>
        cases brackets with
        | nil => exact absurd hfirst nofun
        | cons innermost outer =>
          rw [Token.brackets] at hfirst
          split at hfirst
          · cases hfirst
            cases bracket <;> rfl
          · exact absurd hfirst nofun
      | comment multiline text =>
        cases hfirst
        cases multiline <;> rfl
      | connective op =>
        cases hfirst
        cases op <;> rfl
      | negation | returns | imports | assignment | identifier | literal =>
        cases hfirst
        rfl
    simp only [decide_eq_true_eq]
    omega

namespace Scaffold

variable {s s' : Scaffold} {lexeme : Lexeme} {importer : Importer}

/-- The brackets that are open in a scaffold, innermost first. -/
def brackets (s : Scaffold) : List Bracket := s.outer.map fun level => level.1.bracket

theorem brackets_place (h : s.place lexeme = .ok s') :
    lexeme.token.brackets s.brackets = some s'.brackets := by
  obtain ⟨token, pos⟩ := lexeme
  cases token with
  | connective op =>
    change s.pushConnective op pos = .ok s' at h
    unfold pushConnective at h
    split at h
    · split at h
      · cases h
        rfl
      · exact absurd h nofun
    · exact absurd h nofun
  | groupOpen =>
    cases h
    change some (.round :: s.brackets) = some (s.openGroup pos).brackets
    unfold openGroup
    split <;> rfl
  | close bracket =>
    change s.closeBracket bracket pos = .ok s' at h
    unfold closeBracket at h
    split at h
    · exact absurd h nofun
    · next wrapper nodes outer houter =>
      split at h
      · next hbracket =>
        cases h
        have hbrackets : s.brackets = bracket :: outer.map fun level => level.1.bracket := by
          rw [brackets, houter, List.map_cons, hbracket]
        show Token.brackets s.brackets (.close bracket) = _
        rw [hbrackets, Token.brackets, if_pos rfl]
        rfl
      · exact absurd h nofun
  | comment | negation | blockOpen | returns | imports | assignment | identifier | literal =>
    cases h
    rfl

/-- Splicing and binding open and close nothing. -/
theorem outer_splice (h : s.splice importer = .ok s') : s'.outer = s.outer := by
  unfold splice at h
  split at h
  · split at h
    · cases h
      rfl
    · exact absurd h nofun
  · cases h
    rfl

theorem outer_bindLast (s : Scaffold) : s.bindLast.outer = s.outer := by
  unfold bindLast
  split
  · split <;> rfl
  · rfl

theorem brackets_add (h : s.add importer lexeme = .ok s') :
    lexeme.token.brackets s.brackets = some s'.brackets := by
  obtain ⟨placed, spliced, hplace, -, hsplice, rfl⟩ := add_eq_ok_iff.1 h
  rw [brackets_place hplace, brackets, brackets, outer_bindLast, outer_splice hsplice]

theorem brackets_foldlM {lexemes : List Lexeme} (h : lexemes.foldlM (add importer) s = .ok s') :
    (lexemes.map Lexeme.token).foldlM Token.brackets s.brackets = some s'.brackets := by
  induction lexemes generalizing s with
  | nil =>
    cases h
    rfl
  | cons lexeme lexemes ih =>
    rw [List.foldlM_cons, bind_eq_ok_iff] at h
    obtain ⟨between, hfirst, hrest⟩ := h
    rw [List.map_cons, List.foldlM_cons, brackets_add hfirst]
    exact ih hrest

/-! ## Whole texts -/

theorem eq_reverse_of_finish {pos : Position} {nodes : List Node} (h : s.finish pos = .ok nodes) :
    s.outer = [] ∧ nodes = s.current.reverse := by
  unfold finish at h
  split at h
  · next hclosed =>
    split at h
    · exact absurd h nofun
    · exact ⟨List.isEmpty_iff.1 hclosed, (Except.ok.inj h).symm⟩
  · exact absurd h nofun

/-- Only the end of a text shows that brackets have been left open. -/
theorem foldlM_ne_unclosed {lexemes : List Lexeme} {extra : Nat} :
    lexemes.foldlM (add importer) s ≠ .error (.unclosed extra) := by
  intro h
  obtain ⟨front, lexeme, back, between, -, -, hadd⟩ := exists_of_foldlM_error h
  exact absurd (pos?_of_add hadd) nofun

end Scaffold

/-- The tokens of a text, as far as it can be read. -/
def Reading.tokens (reading : Reading) : List Token := reading.lexemes.map Lexeme.token

/-- The tokens of the collection of a name. -/
def Collection.tokens (name : String) : List Token :=
  match find? name with
  | some collection => (Reading.ofText collection.text).tokens
  | none => []

namespace Forest

variable {importer : Scaffold.Importer} {text : String} {nodes : List Node}

/-- A text that has trees is read to its end, and all its brackets are closed. -/
theorem exists_scaffold_of_ofTextWith (h : ofTextWith importer text = .ok nodes) :
    ∃ s pos, (Reading.ofText text).lexemes.foldlM (Scaffold.add importer) .empty = .ok s ∧
      (Reading.ofText text).ending = .complete pos ∧ s.outer = [] ∧
      nodes = s.current.reverse := by
  simp only [ofTextWith, bind_eq_ok_iff] at h
  obtain ⟨s, hfold, h⟩ := h
  split at h
  · next pos hending =>
    obtain ⟨houter, rfl⟩ := Scaffold.eq_reverse_of_finish h
    exact ⟨s, pos, hfold, hending, houter, rfl⟩
  · exact absurd h nofun

theorem exists_scaffold_of_unclosed {extra : Nat}
    (h : ofTextWith importer text = .error (.unclosed extra)) :
    ∃ s, (Reading.ofText text).lexemes.foldlM (Scaffold.add importer) .empty = .ok s ∧
      s.outer.length = extra ∧ s.outer ≠ [] := by
  simp only [ofTextWith, bind_eq_error_iff] at h
  rcases h with hfold | ⟨s, hfold, h⟩
  · exact absurd hfold Scaffold.foldlM_ne_unclosed
  · refine ⟨s, hfold, ?_⟩
    split at h
    · unfold Scaffold.finish at h
      split at h
      · split at h <;> exact absurd h nofun
      · next hopen =>
        cases h
        exact ⟨rfl, fun hclosed => hopen (List.isEmpty_iff.2 hclosed)⟩
    · exact absurd h nofun

/-- The trees of a text have its tokens. -/
theorem tokensAll_of_ofTextWith {collected : String → List Token}
    (himporter : ∀ path nodes, importer path = .ok nodes → Node.tokensAll nodes = collected path)
    (h : ofTextWith importer text = .ok nodes) :
    Node.tokensAll nodes = (Reading.ofText text).tokens.flatMap (Token.spliced collected) := by
  obtain ⟨s, pos, hfold, -, houter, rfl⟩ := exists_scaffold_of_ofTextWith h
  have htokens := Scaffold.tokens_foldlM himporter hfold
  rw [Scaffold.tokens, houter] at htokens
  exact htokens

/-- A collection is imported as the trees of its tokens. -/
theorem tokensAll_of_importCollection {origin : Origin} {path : String}
    (h : importCollection origin path = .ok nodes) :
    Node.tokensAll nodes = Collection.tokens path := by
  unfold importCollection at h
  split at h
  · split at h
    · next collection hfind =>
      split at h
      · next collected hcollected =>
        cases h
        -- Nothing can be imported here, so an import may stand for itself.
        have hrefused : ∀ path nodes,
            (.error .unknownCollection : Except ImportRefusal (List Node)) = .ok nodes →
              Node.tokensAll nodes = [.imports path] := nofun
        have htokens := tokensAll_of_ofTextWith hrefused hcollected
        have hself : Token.spliced (fun path => [.imports path]) = fun token => [token] := by
          funext token
          cases token <;> rfl
        rw [htokens, hself, List.flatMap_singleton', Collection.tokens, hfind]
      · exact absurd h nofun
    · exact absurd h nofun
  · exact absurd h nofun

/-- At every point of a text, the tokens of what has been built are those that have
been read, with the tokens of a collection in the place of its import.  Trees have
the tokens of the whole text, all brackets of which match.  If brackets are left
open, then the number in the fault is how many more are opened than closed. -/
theorem tokens_ofText (origin : Origin) (text : String) :
    (∀ front s, front <+: (Reading.ofText text).lexemes →
        front.foldlM (Scaffold.add (importCollection origin)) .empty = .ok s →
        s.tokens = (front.map Lexeme.token).flatMap (Token.spliced Collection.tokens)) ∧
      (∀ nodes, ofText origin text = .ok nodes →
        (∃ pos, (Reading.ofText text).ending = .complete pos) ∧
          Node.tokensAll nodes =
            (Reading.ofText text).tokens.flatMap (Token.spliced Collection.tokens) ∧
          (Reading.ofText text).tokens.foldlM Token.brackets [] = some []) ∧
      ∀ extra, ofText origin text = .error (.unclosed extra) →
        1 ≤ extra ∧ Token.opening (Reading.ofText text).tokens =
          Token.closing (Reading.ofText text).tokens + extra := by
  have himporter : ∀ path nodes, importCollection origin path = .ok nodes →
      Node.tokensAll nodes = Collection.tokens path := fun _ _ => tokensAll_of_importCollection
  refine ⟨fun front s _ hfold => Scaffold.tokens_foldlM himporter hfold, ?_, ?_⟩
  · intro nodes h
    obtain ⟨s, pos, hfold, hending, houter, -⟩ := exists_scaffold_of_ofTextWith h
    refine ⟨⟨pos, hending⟩, tokensAll_of_ofTextWith himporter h, ?_⟩
    have hbrackets := Scaffold.brackets_foldlM hfold
    rw [Scaffold.brackets, Scaffold.brackets, houter] at hbrackets
    exact hbrackets
  · intro extra h
    obtain ⟨s, hfold, hlength, hopen⟩ := exists_scaffold_of_unclosed h
    have hcount := Token.length_add_opening (Scaffold.brackets_foldlM hfold)
    rw [Scaffold.brackets, Scaffold.brackets, List.length_map, List.length_map, hlength] at hcount
    change 0 + Token.opening (Reading.ofText text).tokens =
      extra + Token.closing (Reading.ofText text).tokens at hcount
    have hpos := List.length_pos_iff.2 hopen
    omega

/-- A block and an invocation of it, with the tokens of their trees, and the same
text without its last bracket. -/
theorem tokens_ofText_invoking :
    (∃ nodes, ofText .client "block f(a b[2]) \x7b return (not a) \x7d f(1)" = .ok nodes ∧
      Node.tokensAll nodes =
        [.blockOpen "f" ["a", "b0", "b1"], .returns, .groupOpen, .negation, .identifier "a",
          .close .round, .close .brace, .identifier "f", .groupOpen, .literal true,
          .close .round]) ∧
      ofText .client "block f(a b[2]) \x7b return (not a) \x7d f(1" = .error (.unclosed 1) ∧
      Token.opening (Reading.ofText "block f(a b[2]) \x7b return (not a) \x7d f(1").tokens =
        Token.closing (Reading.ofText "block f(a b[2]) \x7b return (not a) \x7d f(1").tokens + 1 := by
  have hread : (Reading.ofText "block f(a b[2]) \x7b return (not a) \x7d f(1)").tokens =
      [.blockOpen "f" ["a", "b0", "b1"], .returns, .groupOpen, .negation, .identifier "a",
        .close .round, .close .brace, .identifier "f", .groupOpen, .literal true,
        .close .round] := by decide +kernel
  have hclosed :
      (ofText .client "block f(a b[2]) \x7b return (not a) \x7d f(1)").toOption.isSome := by
    decide +kernel
  have hopen : (match ofText .client "block f(a b[2]) \x7b return (not a) \x7d f(1" with
      | .error (.unclosed extra) => extra == 1
      | _ => false) = true := by decide +kernel
  split at hopen
  · next extra hfault =>
    cases eq_of_beq hopen
    refine ⟨?_, hfault, ((tokens_ofText .client _).2.2 1 hfault).2⟩
    cases hresult : ofText .client "block f(a b[2]) \x7b return (not a) \x7d f(1)" with
    | error fault =>
      rw [hresult] at hclosed
      exact absurd hclosed nofun
    | ok nodes =>
      refine ⟨nodes, rfl, ?_⟩
      rw [((tokens_ofText .client _).2.1 nodes hresult).2.1, hread]
      rfl
  · exact absurd hopen nofun

end Forest

end Gatework
