import Gatework.Proofs.Forest.RoundTrip

/-!
# What collections declare

The collections consist of comments and blocks.  Where no return comes before them, such nodes
may stand behind any others, and their tokens build them there.

There are two groups.

* The tokens of a comment or a block build it, also behind an operator that waits for an
  operand.
* The nodes and the tokens of the collections, computed from their characters.
-/

namespace Gatework

/-! ## Comments and blocks -/

namespace Node

variable {importer : Scaffold.Importer}

/-- Whether a node is a comment, or a block that is regular at every depth. -/
def isDeclaration : Node → Bool
  | comment _ _ _ => true
  | block pos name params outputs body => (block pos name params outputs body).all isRegular
  | _ => false

/-- The tokens of a comment or a block build it, if it may stand there. -/
theorem addAll_declaration {s : Scaffold} {node : Node} (h : node.isDeclaration = true)
    (hclean : (s.push node.unplaced).Clean) :
    s.addAll importer node.tokens = .ok (s.push node.unplaced) := by
  cases node with
  | comment pos multiline text =>
    have hplace : s.place ⟨.comment multiline text, .start⟩ =
        .ok (s.push (comment pos multiline text).unplaced) := rfl
    rw [tokens, Scaffold.addAll_cons (Scaffold.add_of_place hplace hclean nofun),
      Scaffold.bindLast_push_of_isOperand rfl]
    rfl
  | block pos name params outputs body =>
    rw [isDeclaration, all, isRegular, Bool.and_eq_true, Bool.and_eq_true, Bool.and_eq_true] at h
    rw [addAll_block (eq_of_beq h.1.1.2) h.1.2 (parsesAll_of_isRegular importer body h.2) hclean]
    exact congrArg Except.ok (Scaffold.bindLast_push_of_isOperand rfl)
  | _ => cases h

/-- A comment or a block may stand behind all nodes but returns. -/
theorem clean_push_declaration {s : Scaffold} {node : Node} (h : node.isDeclaration = true)
    (hclean : s.Clean) (hreturn : s.current.any isReturn = false) :
    (s.push node.unplaced).Clean ∧ (s.push node.unplaced).current.any isReturn = false := by
  rw [Scaffold.clean_push, reservedUse?_unplaced, hreturn, Scaffold.push, List.any_cons,
    isReturn_unplaced, hreturn, Bool.or_false]
  cases node with
  | comment | block => exact ⟨⟨hclean, rfl, fun hfalse => absurd hfalse Bool.false_ne_true⟩, rfl⟩
  | _ => cases h

theorem addAll_declarations {nodes : List Node} (h : nodes.all isDeclaration = true)
    {s : Scaffold} (hclean : s.Clean) (hreturn : s.current.any isReturn = false) :
    s.addAll importer (tokensAll nodes) =
      .ok ⟨(unplacedAll nodes).reverse ++ s.current, s.outer⟩ := by
  induction nodes generalizing s with
  | nil => rfl
  | cons node nodes ih =>
    rw [List.all_cons, Bool.and_eq_true] at h
    obtain ⟨hpushed, hpushedReturn⟩ := clean_push_declaration h.1 hclean hreturn
    rw [tokensAll, Scaffold.addAll_append (addAll_declaration h.1 hpushed),
      ih h.2 hpushed hpushedReturn, unplacedAll, List.reverse_cons, List.append_assoc]
    rfl

end Node

/-! ## The collections -/

namespace Forest

variable {origin : Origin} {collection : Collection}

/-- What a collection is made of. -/
theorem exists_declarations_of_characters
    (hname : Collection.isName collection.name = true)
    (hfind : Collection.find? collection.name = some collection)
    (h : ∃ chars, collection.text = String.ofList chars ∧
      isSpelled ((readFrom 0 .start chars).lexemes.map Lexeme.token) chars = true ∧
      ((resume (fun _ => .error .unknownCollection) .empty (readFrom 0 .start chars)).toOption.any
        fun nodes => nodes.all Node.isDeclaration) = true) :
    ∃ nodes, importCollection origin collection.name = .ok nodes ∧
      nodes.all Node.isDeclaration = true ∧
      ∀ rest, Lexes collection.text.toList (Node.tokensAll nodes) rest := by
  obtain ⟨chars, htext, hspelled, hnodes⟩ := h
  have hchars : collection.text.toList = chars := by rw [htext, String.toList_ofList]
  cases hresult : resume (fun _ => .error .unknownCollection) .empty (readFrom 0 .start chars) with
  | error fault =>
    rw [hresult] at hnodes
    cases hnodes
  | ok nodes =>
    rw [hresult] at hnodes
    have hcollected : ofTextWith (fun _ => .error .unknownCollection) collection.text =
        .ok nodes := by
      rw [ofTextWith_eq_resume, Reading.ofText, hchars, hresult]
    have himport : importCollection origin collection.name = .ok nodes := by
      rw [importCollection, if_pos hname, hfind]
      dsimp only
      rw [hcollected]
    have htokens : Node.tokensAll nodes = (readFrom 0 .start chars).lexemes.map Lexeme.token := by
      rw [tokensAll_of_importCollection himport, Collection.tokens, hfind, ← hchars]
      rfl
    refine ⟨nodes, himport, hnodes, fun rest => ?_⟩
    rw [htokens, hchars]
    exact lexes_of_isSpelled hspelled rest

set_option maxRecDepth 20000 in
/-- An import of a collection gives comments and blocks, and the text of the collection is
read as their tokens in front of every text. -/
theorem exists_declarations (origin : Origin) (h : collection ∈ Collection.all) :
    ∃ nodes, importCollection origin collection.name = .ok nodes ∧
      nodes.all Node.isDeclaration = true ∧
      ∀ rest, Lexes collection.text.toList (Node.tokensAll nodes) rest := by
  rw [Collection.all, List.mem_cons, List.mem_cons, List.mem_singleton] at h
  rcases h with rfl | rfl | rfl
  · exact exists_declarations_of_characters rfl rfl ⟨_, rfl, by decide +kernel⟩
  · exact exists_declarations_of_characters rfl rfl ⟨_, rfl, by decide +kernel⟩
  · exact exists_declarations_of_characters rfl rfl ⟨_, rfl, by decide +kernel⟩

end Forest

end Gatework
