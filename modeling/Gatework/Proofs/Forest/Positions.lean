import Gatework.Proofs.Forest.Origin
import Gatework.Proofs.Token.Positions
import Mathlib.Data.List.Forall2

/-!
# Positions in descriptions

Diagnostics can be trusted to the byte.  The nodes of a description have the positions of their
tokens, and a fault has that of the token at which it is found, or of the end of what can be
read.  These are the positions of their places in the text.

There are three groups.

* The nodes that have been built fit the tokens that have been read, with the tokens of a
  collection in the place of its import.
* `FoundAt`: where faults are found.
* `positions_ofText` puts this together with the positions of tokens.
-/

namespace Gatework

deriving instance DecidableEq for Lexeme

/-! ## Nodes -/

/-- The tokens that an importer puts in the place of a token, with their positions. -/
def Lexeme.spliced (collected : String → List Lexeme) (lexeme : Lexeme) : List Lexeme :=
  match lexeme.token with
  | .imports path => collected path
  | _ => [lexeme]

theorem Lexeme.spliced_of_ne {collected : String → List Lexeme} {lexeme : Lexeme}
    (h : ∀ path, lexeme.token ≠ .imports path) : lexeme.spliced collected = [lexeme] := by
  unfold spliced
  split
  · next path hpath => exact absurd hpath (h path)
  · rfl

/-- The tokens of the collection of a name, with their positions in its text. -/
def Collection.lexemes (name : String) : List Lexeme :=
  match find? name with
  | some collection => (Reading.ofText collection.text).lexemes
  | none => []

namespace Scaffold

variable {s s' : Scaffold} {lexeme : Lexeme} {importer : Importer}
  {collected : String → List Lexeme}

theorem Brings.fits {brought : List Mark}
    (himporter : ∀ path nodes, importer path = .ok nodes →
      List.Forall₂ Mark.Fits (Node.marksAll nodes) (collected path))
    (h : Brings importer lexeme brought) :
    List.Forall₂ Mark.Fits brought (lexeme.spliced collected) := by
  cases h with
  | token hfits hno =>
    rw [Lexeme.spliced_of_ne hno]
    exact .cons hfits .nil
  | collection htoken himport =>
    rw [Lexeme.spliced, htoken]
    exact himporter _ _ himport

/-- The positions of nodes do not change while tokens are added. -/
theorem fits_foldlM
    (himporter : ∀ path nodes, importer path = .ok nodes →
      List.Forall₂ Mark.Fits (Node.marksAll nodes) (collected path))
    {before lexemes : List Lexeme} (hs : List.Forall₂ Mark.Fits s.marks before)
    (h : lexemes.foldlM (add importer) s = .ok s') :
    List.Forall₂ Mark.Fits s'.marks (before ++ lexemes.flatMap (Lexeme.spliced collected)) := by
  induction lexemes generalizing s before with
  | nil =>
    cases h
    rwa [List.flatMap_nil, List.append_nil]
  | cons lexeme lexemes ih =>
    rw [List.foldlM_cons, bind_eq_ok_iff] at h
    obtain ⟨between, hfirst, hrest⟩ := h
    obtain ⟨brought, hbrings, hmarks⟩ := marks_add hfirst
    have hbetween : List.Forall₂ Mark.Fits between.marks (before ++ lexeme.spliced collected) := by
      rw [hmarks]
      exact List.rel_append hs (hbrings.fits himporter)
    rw [List.flatMap_cons, ← List.append_assoc]
    exact ih hbetween hrest

end Scaffold

namespace Forest

variable {importer : Scaffold.Importer} {text : String} {nodes : List Node}

theorem fits_of_ofTextWith {collected : String → List Lexeme}
    (himporter : ∀ path nodes, importer path = .ok nodes →
      List.Forall₂ Mark.Fits (Node.marksAll nodes) (collected path))
    (h : ofTextWith importer text = .ok nodes) :
    List.Forall₂ Mark.Fits (Node.marksAll nodes)
      ((Reading.ofText text).lexemes.flatMap (Lexeme.spliced collected)) := by
  obtain ⟨s, pos, hfold, -, houter, rfl⟩ := exists_scaffold_of_ofTextWith h
  have hfits := Scaffold.fits_foldlM himporter .nil hfold
  rw [Scaffold.marks, houter] at hfits
  exact hfits

theorem fits_of_importCollection {origin : Origin} {path : String}
    (h : importCollection origin path = .ok nodes) :
    List.Forall₂ Mark.Fits (Node.marksAll nodes) (Collection.lexemes path) := by
  unfold importCollection at h
  split at h
  · split at h
    · next collection hfind =>
      split at h
      · next collected hcollected =>
        cases h
        -- Without an answer to any import the text has been read, so it has none.
        have hno : ∀ lexeme ∈ (Reading.ofText collection.text).lexemes,
            lexeme.spliced Collection.lexemes = [lexeme] := by
          refine fun lexeme hlexeme => Lexeme.spliced_of_ne fun path hpath => ?_
          have hmem : lexeme.token ∈ (Reading.ofText collection.text).tokens :=
            List.mem_map_of_mem hlexeme
          rw [hpath] at hmem
          obtain ⟨_, hanswer⟩ := exists_of_ofTextWith_imports hcollected hmem
          cases hanswer
        have hrefused : ∀ path nodes,
            (.error .unknownCollection : Except ImportRefusal (List Node)) = .ok nodes →
              List.Forall₂ Mark.Fits (Node.marksAll nodes) (Collection.lexemes path) := nofun
        have hfits := fits_of_ofTextWith hrefused hcollected
        rw [List.flatMap_congr hno, List.flatMap_singleton'] at hfits
        rwa [Collection.lexemes, hfind]
      · exact absurd h nofun
    · exact absurd h nofun
  · exact absurd h nofun

/-! ## Faults -/

/-- Where a fault of a text is found: at the first token that cannot be added, or at the end of
what can be read if all tokens have been.  It has the position of this place, unless it is that
brackets are left open. -/
inductive FoundAt (importer : Scaffold.Importer) (text : String) : ForestError → Prop
  | token {front back : List Lexeme} {lexeme : Lexeme} {s : Scaffold} {fault : ForestError}
      (hread : (Reading.ofText text).lexemes = front ++ lexeme :: back)
      (hfront : front.foldlM (Scaffold.add importer) .empty = .ok s)
      (hadd : s.add importer lexeme = .error fault) (hpos : fault.pos? = some lexeme.pos) :
      FoundAt importer text fault
  | stuck {s : Scaffold} {pos : Position} {excerpt : String}
      (hread : (Reading.ofText text).lexemes.foldlM (Scaffold.add importer) .empty = .ok s)
      (hending : (Reading.ofText text).ending = .stuck pos excerpt) :
      FoundAt importer text (.noToken pos excerpt)
  | operand {s : Scaffold} {pos : Position} {violation : Violation}
      (hread : (Reading.ofText text).lexemes.foldlM (Scaffold.add importer) .empty = .ok s)
      (hending : (Reading.ofText text).ending = .complete pos)
      (hviolation : s.current.reverse.findSome? Node.operandViolation? = some violation) :
      FoundAt importer text (.invalid pos violation)
  | unclosed {s : Scaffold} {pos : Position}
      (hread : (Reading.ofText text).lexemes.foldlM (Scaffold.add importer) .empty = .ok s)
      (hending : (Reading.ofText text).ending = .complete pos) (hopen : s.outer ≠ []) :
      FoundAt importer text (.unclosed s.outer.length)

theorem foundAt_of_ofTextWith {fault : ForestError} (h : ofTextWith importer text = .error fault) :
    FoundAt importer text fault := by
  simp only [ofTextWith, bind_eq_error_iff] at h
  rcases h with hfold | ⟨s, hfold, h⟩
  · obtain ⟨front, lexeme, back, between, hread, hfront, hadd⟩ :=
      Scaffold.exists_of_foldlM_error hfold
    exact .token hread hfront hadd (Scaffold.pos?_of_add hadd)
  · split at h
    · next pos hending =>
      unfold Scaffold.finish at h
      split at h
      · split at h
        · next violation hviolation =>
          cases h
          exact .operand hfold hending hviolation
        · cases h
      · next hopen =>
        cases h
        exact .unclosed hfold hending fun hclosed => hopen (List.isEmpty_iff.2 hclosed)
    · next pos excerpt hending =>
      cases h
      exact .stuck hfold hending

/-! ## Whole texts -/

/-- The bytes before a place are the first bytes of the text.  All tokens of the text, and the end
of what can be read, have the positions that the bytes before their places give.  At every point
of the text, the nodes that have been built have the positions of their tokens, in the order of
the text, and so do the trees of the whole.  The nodes of a collection have those in its own text.
A fault has the position of the token at which it is found, or of the end of what can be read. -/
theorem positions_ofText (text : String) :
    (∀ passed tokens rest, Comes text.toList passed tokens rest →
        text.toUTF8.data.toList.take passed.length = passed.map PassedByte.byte) ∧
      (Reading.ofText text).IsExact text.toList [] ∧
      (∀ origin front s, front <+: (Reading.ofText text).lexemes →
        front.foldlM (Scaffold.add (importCollection origin)) .empty = .ok s →
        List.Forall₂ Mark.Fits s.marks (front.flatMap (Lexeme.spliced Collection.lexemes))) ∧
      (∀ origin nodes, ofText origin text = .ok nodes →
        List.Forall₂ Mark.Fits (Node.marksAll nodes)
          ((Reading.ofText text).lexemes.flatMap (Lexeme.spliced Collection.lexemes))) ∧
      ∀ importer fault, ofTextWith importer text = .error fault →
        FoundAt importer text fault := by
  have himporter (origin : Origin) : ∀ path nodes, importCollection origin path = .ok nodes →
      List.Forall₂ Mark.Fits (Node.marksAll nodes) (Collection.lexemes path) :=
    fun _ _ => fits_of_importCollection
  refine ⟨fun passed tokens rest hcomes => hcomes.take_toUTF8, Reading.isExact_ofText text, ?_, ?_,
    ?_⟩
  · exact fun origin front s _ hfold => Scaffold.fits_foldlM (himporter origin) .nil hfold
  · exact fun origin nodes h => fits_of_ofTextWith (himporter origin) h
  · exact fun importer fault h => foundAt_of_ofTextWith h

/-- A comment that goes over two lines, with a character of two bytes, and line breaks of two
characters inside and behind it.  Without the name at the end, the negation has no operand. -/
theorem positions_ofText_broken :
    (∃ nodes, ofText .client "/* é\r\n*/ not\r\n a" = .ok nodes ∧
      List.Forall₂ Mark.Fits (Node.marksAll nodes)
        [⟨.comment true "é\r", ⟨1, 1⟩⟩, ⟨.negation, ⟨3, 2⟩⟩, ⟨.identifier "a", ⟨2, 3⟩⟩]) ∧
      Lexeme.IsExact "/* é\r\n*/ not\r\n a".toList [.comment true "é\r", .negation]
        ⟨.identifier "a", ⟨2, 3⟩⟩ ∧
      ∃ fault, ofText .client "/* é\r\n*/ not\r\n" = .error fault ∧ fault.pos? = some ⟨1, 3⟩ ∧
        FoundAt (importCollection .client) "/* é\r\n*/ not\r\n" fault := by
  have hread : (Reading.ofText "/* é\r\n*/ not\r\n a").lexemes =
      [⟨.comment true "é\r", ⟨1, 1⟩⟩, ⟨.negation, ⟨3, 2⟩⟩, ⟨.identifier "a", ⟨2, 3⟩⟩] := by
    decide +kernel
  have hnodes : (ofText .client "/* é\r\n*/ not\r\n a").toOption.isSome := by decide +kernel
  have hfault : (match ofText .client "/* é\r\n*/ not\r\n" with
      | .error fault => fault.pos? == some ⟨1, 3⟩
      | _ => false) = true := by decide +kernel
  refine ⟨?_, ?_, ?_⟩
  · cases hresult : ofText .client "/* é\r\n*/ not\r\n a" with
    | error fault =>
      rw [hresult] at hnodes
      exact absurd hnodes nofun
    | ok nodes =>
      have hfits := (positions_ofText _).2.2.2.1 .client nodes hresult
      rw [hread] at hfits
      exact ⟨nodes, rfl, hfits⟩
  · exact (positions_ofText _).2.1.lexeme [_, _] _ [] hread
  · split at hfault
    · next fault hresult =>
      exact ⟨fault, hresult, eq_of_beq hfault, (positions_ofText _).2.2.2.2 _ _ hresult⟩
    · exact absurd hfault nofun

end Forest

end Gatework
