import Gatework.Proofs.Forest.NormalForm

/-!
# Imports and the texts that they stand for

To import a collection is to write its text in the place of the import.  The nodes that
are imported are built apart from the rest and spliced as a whole.  The tokens of the text meet
the open list one by one, with its checks, and an operator there may wait for an operand.

There are two groups.

* Scaffolds in normal form break no rule.
* `Forest.import_includes`: what is left behind by an import and by its text, and how both
  go on.
-/

namespace Gatework

/-! ## Normal form and the rules of a list -/

theorem Node.reservedUse?_of_isNormal {node : Node} (h : node.isNormal = true) :
    node.reservedUse? = none := by
  cases node with
  | identifier pos name =>
    have hwords : ∀ word ∈ reservedWords, word ∈ wordsWithMeaning := by decide
    rw [isNormal, Bool.not_eq_true', List.contains_eq_mem, decide_eq_false_iff_not] at h
    rw [reservedUse?, List.contains_eq_mem, decide_eq_false (mt (hwords name) h)]
    rfl
  | assignment pos names =>
    rw [isNormal, Bool.and_eq_true, List.all_eq_true] at h
    rw [reservedUse?, Option.map_eq_none_iff, List.find?_eq_none]
    intro name hname
    rw [Bool.not_eq_true, ← Bool.not_eq_true']
    exact h.2 name hname
  | _ => rfl

theorem Scaffold.Normal.clean {s : Scaffold} (h : s.Normal) : s.Clean := by
  obtain ⟨current, outer⟩ := s
  obtain ⟨hcurrent, -⟩ := h
  induction current with
  | nil => rfl
  | cons node current ih =>
    obtain ⟨hrest, hnode, hreturn, -⟩ := Forest.isNormal_reverse_cons.1 hcurrent
    exact clean_push.2 ⟨ih hrest, Node.reservedUse?_of_isNormal (Node.of_all hnode), hreturn⟩

/-! ## Imports and texts -/

namespace Forest

variable {importer : Scaffold.Importer} {s t : Scaffold} {origin : Origin} {collection : Collection}
  {nodes : List Node}

theorem normal_of_foldlM {text : String} {front : List Lexeme}
    (hfront : front <+: (Reading.ofText text).lexemes)
    (hs : front.foldlM (Scaffold.add (importCollection origin)) .empty = .ok s) : s.Normal :=
  Scaffold.normal_foldlM (fun _ _ => spliceable_of_importCollection)
    (fun _ hmem => Reading.isPlain_of_mem (hfront.subset hmem)) Scaffold.normal_empty hs

/-- A text that is read as some tokens brings a scaffold from which the reading goes on
behind the text. -/
theorem resume_of_lexes {cs rest : List Char} {tokens : List Token} (hlexes : Lexes cs tokens rest)
    (ht : s.addAll importer tokens = .ok t) (pos next : Position) :
    unplacedResult Node.unplacedAll (resume importer s (readFrom 0 pos (cs ++ rest))) =
      unplacedResult Node.unplacedAll (resume importer t (readFrom 0 next rest)) := by
  obtain ⟨middle, htokens, hending⟩ := hlexes pos
  obtain ⟨hrest, hrestEnding⟩ := readFrom_congr 0 middle next rest
  let behind := readFrom 0 next rest
  let all : Reading := ⟨tokens.map (fun token => ⟨token, .start⟩) ++ behind.lexemes, behind.ending⟩
  have hsplit : resume importer s all = resume importer t behind := resume_append ht _ _
  have hall : (readFrom 0 pos (cs ++ rest)).lexemes.map Lexeme.token =
      all.lexemes.map Lexeme.token := by
    rw [htokens, hrest, List.map_append, Lexeme.map_token_start]
  rw [← hsplit]
  exact resume_congr rfl hall (by rw [hending, hrestEnding])

/-- An import puts its nodes behind those of the open list. -/
theorem add_import {path : String} (himport : importer path = .ok nodes)
    (hnodes : Scaffold.Spliceable nodes) (h : s.Normal)
    (hreturn : s.current.any Node.isReturn = false) (pos : Position) :
    s.add importer ⟨.imports path, pos⟩ = .ok ⟨nodes.reverse ++ s.current, s.outer⟩ := by
  have hpushed : (s.push (.imports pos path)).Clean := by
    rw [Scaffold.clean_push, hreturn]
    exact ⟨h.clean, rfl, fun hfalse => absurd hfalse Bool.false_ne_true⟩
  have hcheck : (s.push (.imports pos path)).check pos = .ok (s.push (.imports pos path)) := by
    rw [Scaffold.check, hpushed]
  have hsplice : (s.push (.imports pos path)).splice importer =
      .ok ⟨nodes.reverse ++ s.current, s.outer⟩ := by
    rw [Scaffold.splice, Scaffold.push]
    dsimp only
    rw [himport]
  refine Scaffold.add_eq_ok_iff.2 ⟨_, _, rfl, hcheck, hsplice, ?_⟩
  exact (Scaffold.bindLast_of_isNormal (Scaffold.isNormal_splice h hreturn hnodes)).symm

/-- To import a collection is to write its text in the place of the import.  Between any two
tokens of a text, where the open list has no return, both leave the same open lists and
brackets behind, apart from positions.  So both go on to the same trees or to the same fault,
apart from positions, whatever text follows. -/
theorem import_includes (origin : Origin) {collection : Collection}
    (hcollection : collection ∈ Collection.all) {text : String} {front : List Lexeme}
    {s : Scaffold} (hfront : front <+: (Reading.ofText text).lexemes)
    (hs : front.foldlM (Scaffold.add (importCollection origin)) .empty = .ok s)
    (hreturn : s.current.any Node.isReturn = false) :
    (∀ pos pos', ∃ imported included,
      s.add (importCollection origin) ⟨.imports collection.name, pos⟩ = .ok imported ∧
        (readFrom 0 pos' collection.text.toList).lexemes.foldlM
          (Scaffold.add (importCollection origin)) s = .ok included ∧
        imported.unplaced = included.unplaced) ∧
      ∀ line rest, Lexes line [.imports collection.name] rest → ∀ pos pos',
        unplacedResult Node.unplacedAll
            (resume (importCollection origin) s (readFrom 0 pos (line ++ rest))) =
          unplacedResult Node.unplacedAll
            (resume (importCollection origin) s
              (readFrom 0 pos' (collection.text.toList ++ rest))) := by
  have hnormal := normal_of_foldlM hfront hs
  obtain ⟨nodes, himport, hdeclarations, hlexes⟩ := exists_declarations origin hcollection
  have himported := add_import himport (spliceable_of_importCollection himport) hnormal hreturn
  have hincluded : s.addAll (importCollection origin) (Node.tokensAll nodes) =
      .ok ⟨(Node.unplacedAll nodes).reverse ++ s.current, s.outer⟩ :=
    Node.addAll_declarations hdeclarations hnormal.clean hreturn
  have hsame : Scaffold.unplaced ⟨nodes.reverse ++ s.current, s.outer⟩ =
      Scaffold.unplaced ⟨(Node.unplacedAll nodes).reverse ++ s.current, s.outer⟩ := by
    rw [Scaffold.unplaced, Scaffold.unplaced, Node.unplacedAll_append, Node.unplacedAll_append,
      ← Node.unplacedAll_reverse, Node.unplacedAll_unplacedAll]
  refine ⟨fun pos pos' => ?_, fun line rest hline pos pos' => ?_⟩
  · obtain ⟨htokens, -⟩ := (hlexes []).complete pos'
    have hfold := Scaffold.unplaced_foldlM (importCollection origin) s htokens
    rw [hincluded] at hfold
    cases hresult : (readFrom 0 pos' collection.text.toList).lexemes.foldlM
        (Scaffold.add (importCollection origin)) s with
    | error fault =>
      rw [hresult] at hfold
      cases hfold
    | ok included =>
      rw [hresult] at hfold
      exact ⟨_, included, himported pos, rfl, hsame.trans (Except.ok.inj hfold).symm⟩
  · have halone : s.addAll (importCollection origin) [.imports collection.name] =
        .ok ⟨nodes.reverse ++ s.current, s.outer⟩ := Scaffold.addAll_cons (himported .start)
    rw [resume_of_lexes hline halone pos .start,
      resume_of_lexes (hlexes rest) hincluded pos' .start]
    exact resume_congr hsame rfl rfl

/-- An import behind an operator that waits for an operand, in a block that is open. -/
theorem import_includes_waiting :
    ∃ s, (Reading.ofText "// sums\nblock f(a) \x7b not").lexemes.foldlM
        (Scaffold.add (importCollection .client)) .empty = .ok s ∧
      s.current.any Node.isReturn = false ∧
      (∃ imported included,
        s.add (importCollection .client) ⟨.imports "adder", ⟨4, 3⟩⟩ = .ok imported ∧
          (readFrom 0 .start Collection.adder.text.toList).lexemes.foldlM
            (Scaffold.add (importCollection .client)) s = .ok included ∧
          imported.unplaced = included.unplaced) ∧
      Lexes "import adder".toList [.imports "adder"] "\na return a \x7d".toList ∧
      unplacedResult Node.unplacedAll (resume (importCollection .client) s
          (readFrom 0 ⟨4, 3⟩ ("import adder".toList ++ "\na return a \x7d".toList))) =
        unplacedResult Node.unplacedAll (resume (importCollection .client) s
          (readFrom 0 .start (Collection.adder.text.toList ++ "\na return a \x7d".toList))) := by
  have hcomputed : ((Reading.ofText "// sums\nblock f(a) \x7b not").lexemes.foldlM
      (Scaffold.add (importCollection .client)) .empty).toOption.any
        (fun s => !s.current.any Node.isReturn) = true := by
    decide +kernel
  have hline : Lexes ("import " ++ "adder").toList [.imports "adder"]
      "\na return a \x7d".toList :=
    Token.lexes_importLine (by decide) (by decide) (by decide) (by decide) (by decide)
  cases hs : (Reading.ofText "// sums\nblock f(a) \x7b not").lexemes.foldlM
      (Scaffold.add (importCollection .client)) .empty with
  | error fault =>
    rw [hs] at hcomputed
    cases hcomputed
  | ok s =>
    rw [hs] at hcomputed
    have hreturn : s.current.any Node.isReturn = false := Bool.not_eq_true' _ ▸ hcomputed
    have hadder : Collection.adder ∈ Collection.all := .tail _ (.head _)
    obtain ⟨hstep, hgoes⟩ := import_includes .client hadder List.prefix_rfl hs hreturn
    exact ⟨s, rfl, hreturn, hstep _ _, hline, hgoes _ _ hline _ _⟩

end Forest

end Gatework
