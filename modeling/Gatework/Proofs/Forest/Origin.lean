import Gatework.Proofs.Forest.Inclusion

/-!
# Texts of persons and of clients

Where a text comes from decides in which words one refusal of an import is told, and nothing
else.  Two readings of a text, one for each origin, go through the same scaffolds.

There are four groups.

* Refusals in other words, and faults with such a refusal.
* `Scaffold.add_mapRefusal`: importers that answer alike, but for their words, lead to the same
  scaffolds, and to faults that differ in these words only.  The same goes for whole texts.
* The imports of a text that has been read are imports that were answered.
* `ofText_client`: the texts of clients, and which imports are answered at all.
-/

namespace Gatework

/-! ## Refusals in other words -/

/-- The refusal that a client is told in the place of one that a person is told. -/
def ImportRefusal.forClient : ImportRefusal → ImportRefusal
  | localPath => serverPath
  | reason => reason

/-- A fault whose reason is changed if an import is refused. -/
def ForestError.mapRefusal (f : ImportRefusal → ImportRefusal) : ForestError → ForestError
  | importRefused pos path reason => importRefused pos path (f reason)
  | fault => fault

theorem ForestError.mapRefusal_id : mapRefusal id = id := by
  funext fault
  cases fault <;> rfl

/-- Faults may be changed after each of two steps. -/
theorem mapError_bind {ε ε' α β : Type} (f : ε → ε') (x : Except ε α) (next : α → Except ε β) :
    (x >>= next).mapError f = x.mapError f >>= fun a => (next a).mapError f := by
  cases x <;> rfl

theorem mapError_id {ε α : Type} (x : Except ε α) : x.mapError id = x := by
  cases x <;> rfl

/-! ## Importers in other words -/

namespace Scaffold

variable {importer importer' : Importer} {f : ImportRefusal → ImportRefusal} {s s' : Scaffold}
  {lexeme : Lexeme}

/-- Only imports are refused, and no token is when it is placed. -/
theorem place_mapRefusal (lexeme : Lexeme) (s : Scaffold) :
    (s.place lexeme).mapError (ForestError.mapRefusal f) = s.place lexeme := by
  obtain ⟨token, pos⟩ := lexeme
  cases token with
  | connective op =>
    change (s.pushConnective op pos).mapError _ = s.pushConnective op pos
    unfold pushConnective
    split
    · split <;> rfl
    · rfl
  | close bracket =>
    change (s.closeBracket bracket pos).mapError _ = s.closeBracket bracket pos
    unfold closeBracket
    split
    · rfl
    · split <;> rfl
  | _ => rfl

theorem check_mapRefusal (pos : Position) (s : Scaffold) :
    (s.check pos).mapError (ForestError.mapRefusal f) = s.check pos := by
  unfold check
  split <;> rfl

theorem finish_mapRefusal (pos : Position) (s : Scaffold) :
    (s.finish pos).mapError (ForestError.mapRefusal f) = s.finish pos := by
  unfold finish
  split
  · split <;> rfl
  · rfl

/-- The answer to an import that has been placed differs in words if that of the importer
does. -/
theorem splice_mapRefusal (hplace : s.place lexeme = .ok s')
    (h : ∀ path, lexeme.token = .imports path → importer' path = (importer path).mapError f) :
    s'.splice importer' = (s'.splice importer).mapError (ForestError.mapRefusal f) := by
  by_cases htoken : ∃ path, lexeme.token = .imports path
  · obtain ⟨path, htoken⟩ := htoken
    obtain ⟨token, pos⟩ := lexeme
    cases htoken
    cases hplace
    simp only [splice, push, h path rfl]
    cases importer path <;> rfl
  · rw [not_exists] at htoken
    rw [splice_place importer' hplace htoken, splice_place importer hplace htoken]
    rfl

theorem add_mapRefusal
    (h : ∀ path, lexeme.token = .imports path → importer' path = (importer path).mapError f) :
    s.add importer' lexeme =
      (s.add importer lexeme).mapError (ForestError.mapRefusal f) := by
  unfold add
  rw [mapError_bind, place_mapRefusal]
  cases hplace : s.place lexeme with
  | error fault => rfl
  | ok placed =>
    change placed.check lexeme.pos >>= _ = (placed.check lexeme.pos >>= _).mapError _
    rw [mapError_bind, check_mapRefusal]
    cases hcheck : placed.check lexeme.pos with
    | error fault => rfl
    | ok checked =>
      cases eq_of_check hcheck
      change placed.splice importer' >>= _ = (placed.splice importer >>= _).mapError _
      rw [mapError_bind, splice_mapRefusal hplace h]
      rfl

theorem foldlM_mapRefusal {lexemes : List Lexeme}
    (h : ∀ path, Token.imports path ∈ lexemes.map Lexeme.token →
      importer' path = (importer path).mapError f) :
    lexemes.foldlM (add importer') s =
      (lexemes.foldlM (add importer) s).mapError (ForestError.mapRefusal f) := by
  induction lexemes generalizing s with
  | nil => rfl
  | cons lexeme lexemes ih =>
    rw [List.map_cons] at h
    have hrest (next : Scaffold) := ih (s := next) fun path hpath => h path (.tail _ hpath)
    rw [List.foldlM_cons, List.foldlM_cons, mapError_bind,
      add_mapRefusal fun path htoken => h path (htoken ▸ .head _)]
    exact congrArg _ (funext hrest)

end Scaffold

namespace Forest

variable {importer importer' : Scaffold.Importer} {f : ImportRefusal → ImportRefusal}
  {text : String}

/-- The trees of a text, or a fault that differs in words if the answers to its imports do. -/
theorem ofTextWith_mapRefusal
    (h : ∀ path, Token.imports path ∈ (Reading.ofText text).tokens →
      importer' path = (importer path).mapError f) :
    ofTextWith importer' text =
      (ofTextWith importer text).mapError (ForestError.mapRefusal f) := by
  unfold ofTextWith
  dsimp only
  rw [mapError_bind, Scaffold.foldlM_mapRefusal h]
  refine congrArg _ (funext fun s => ?_)
  cases (Reading.ofText text).ending with
  | complete pos => exact (s.finish_mapRefusal pos).symm
  | stuck pos excerpt => rfl

/-- Only the answers to the imports of a text matter for its trees. -/
theorem ofTextWith_congr
    (h : ∀ path, Token.imports path ∈ (Reading.ofText text).tokens →
      importer' path = importer path) : ofTextWith importer' text = ofTextWith importer text := by
  rw [ofTextWith_mapRefusal (f := id) fun path hpath => (h path hpath).trans (mapError_id _).symm,
    ForestError.mapRefusal_id, mapError_id]

end Forest

/-! ## Answered imports -/

namespace Scaffold

variable {importer : Importer} {s s' : Scaffold}

/-- An import is added only if it is answered. -/
theorem exists_of_add_imports {path : String} {pos : Position}
    (h : s.add importer ⟨.imports path, pos⟩ = .ok s') : ∃ nodes, importer path = .ok nodes := by
  obtain ⟨brought, hbrings, -⟩ := marks_add h
  cases hbrings with
  | token hfits hno => exact absurd rfl (hno path)
  | collection htoken himport =>
    cases htoken
    exact ⟨_, himport⟩

theorem exists_of_foldlM_imports {lexemes : List Lexeme}
    (h : lexemes.foldlM (add importer) s = .ok s') {path : String}
    (hpath : Token.imports path ∈ lexemes.map Lexeme.token) :
    ∃ nodes, importer path = .ok nodes := by
  induction lexemes generalizing s with
  | nil => exact absurd hpath List.not_mem_nil
  | cons lexeme lexemes ih =>
    rw [List.foldlM_cons, bind_eq_ok_iff] at h
    obtain ⟨between, hfirst, hrest⟩ := h
    rw [List.map_cons, List.mem_cons] at hpath
    rcases hpath with htoken | hpath
    · obtain ⟨token, pos⟩ := lexeme
      cases htoken
      exact exists_of_add_imports hfirst
    · exact ih hrest hpath

end Scaffold

namespace Forest

variable {importer : Scaffold.Importer} {origin : Origin} {text path : String} {nodes : List Node}
  {collection : Collection}

theorem exists_of_ofTextWith_imports (h : ofTextWith importer text = .ok nodes)
    (hpath : Token.imports path ∈ (Reading.ofText text).tokens) :
    ∃ nodes, importer path = .ok nodes := by
  obtain ⟨s, pos, hfold, -⟩ := exists_scaffold_of_ofTextWith h
  exact Scaffold.exists_of_foldlM_imports hfold hpath

/-- A path is answered only if it is the name of a collection. -/
theorem mem_names_of_importCollection (h : importCollection origin path = .ok nodes) :
    path ∈ Collection.all.map Collection.name := by
  unfold importCollection at h
  split at h
  · split at h
    · next collection hfind =>
      exact List.mem_map.2 ⟨collection, List.mem_of_find?_eq_some hfind,
        by simpa using List.find?_some hfind⟩
    · cases h
  · cases h

/-- A collection is imported as its text is read on its own, for the same origin. -/
theorem importCollection_of_find? (origin : Origin) (h : Collection.find? path = some collection) :
    importCollection origin path =
      (ofText origin collection.text).mapError .faultyCollection := by
  have hmem : collection ∈ Collection.all := List.mem_of_find?_eq_some h
  have hpath : collection.name = path := by simpa using List.find?_some h
  obtain ⟨nodes, himport, -⟩ := exists_declarations origin hmem
  rw [hpath, importCollection] at himport
  rw [importCollection]
  split at himport
  · next hname =>
    rw [h] at himport
    dsimp only at himport
    rw [if_pos hname, h]
    dsimp only
    split at himport
    · next collected hcollected =>
      -- Without an answer to any import the text has been read, so it has none.
      have hnone : ∀ path, Token.imports path ∈ (Reading.ofText collection.text).tokens →
          importCollection origin path = .error .unknownCollection := by
        intro other hother
        obtain ⟨_, hanswer⟩ := exists_of_ofTextWith_imports hcollected hother
        cases hanswer
      rw [ofText, ofTextWith_congr hnone, hcollected]
      rfl
    · cases himport
  · cases himport

/-- A text that does nothing but import a collection has trees. -/
theorem exists_ofText_of_import (origin : Origin) (hcollection : collection ∈ Collection.all)
    {pos last : Position}
    (hread : Reading.ofText text = ⟨[⟨.imports collection.name, pos⟩], .complete last⟩) :
    ∃ nodes, ofText origin text = .ok nodes := by
  obtain ⟨nodes, himport, hdeclarations, -⟩ := exists_declarations origin hcollection
  have hadd := add_import himport (spliceable_of_importCollection himport) Scaffold.normal_empty
    rfl pos
  have hviolation : nodes.findSome? Node.operandViolation? = none := by
    refine List.findSome?_eq_none_iff.2 fun node hnode => ?_
    have hdeclaration := List.all_eq_true.1 hdeclarations node hnode
    cases node with
    | comment | block => rfl
    | _ => cases hdeclaration
  have hfinish : Scaffold.finish last ⟨nodes.reverse ++ [], []⟩ = .ok nodes := by
    rw [Scaffold.finish, List.append_nil, List.reverse_reverse, hviolation]
    rfl
  refine ⟨nodes, ?_⟩
  rw [ofText, ofTextWith, hread]
  dsimp only
  rw [List.foldlM_cons, hadd]
  exact hfinish

/-! ## Origins -/

/-- Both origins get the same answers to imports, up to the words of a refusal. -/
theorem importCollection_client (path : String) :
    importCollection .client path =
      (importCollection .person path).mapError ImportRefusal.forClient := by
  unfold importCollection
  split
  · split
    · split <;> rfl
    · rfl
  · rfl

/-- A client gets the trees that a person gets, or the same fault in the same place.  The one
difference is that an import that is refused to a person as a local path is refused to a
client as one of the server.  A collection is imported as its text is read on its own, for the
same origin.  Whoever asks, and however the text goes on, all imports that are passed over are
names of collections. -/
theorem ofText_client (text : String) :
    ofText .client text =
        (ofText .person text).mapError (ForestError.mapRefusal ImportRefusal.forClient) ∧
      (∀ origin path collection, Collection.find? path = some collection →
        importCollection origin path =
          (ofText origin collection.text).mapError .faultyCollection) ∧
      (∀ origin front s, front <+: (Reading.ofText text).lexemes →
        front.foldlM (Scaffold.add (importCollection origin)) .empty = .ok s →
        ∀ path, Token.imports path ∈ front.map Lexeme.token →
          path ∈ Collection.all.map Collection.name) ∧
      ∀ origin nodes, ofText origin text = .ok nodes →
        ∀ path, Token.imports path ∈ (Reading.ofText text).tokens →
          path ∈ Collection.all.map Collection.name := by
  refine ⟨ofTextWith_mapRefusal fun path _ => importCollection_client path,
    fun origin path collection hfind => importCollection_of_find? origin hfind, ?_, ?_⟩
  · intro origin front s _ hfold path hpath
    obtain ⟨nodes, hanswer⟩ := Scaffold.exists_of_foldlM_imports hfold hpath
    exact mem_names_of_importCollection hanswer
  · intro origin nodes hnodes path hpath
    obtain ⟨imported, hanswer⟩ := exists_of_ofTextWith_imports hnodes hpath
    exact mem_names_of_importCollection hanswer

/-- A path that both origins are refused, and a collection that both are given. -/
theorem ofText_client_refused :
    ofText .person "import ./own" = .error (.importRefused .start "./own" .localPath) ∧
      ofText .client "import ./own" = .error (.importRefused .start "./own" .serverPath) ∧
      (∃ collection, Collection.find? "latch" = some collection ∧
        importCollection .client "latch" =
          (ofText .client collection.text).mapError .faultyCollection) ∧
      ∃ nodes s, ofText .client "import latch" = .ok nodes ∧
        (Reading.ofText "import latch").lexemes.foldlM
          (Scaffold.add (importCollection .client)) .empty = .ok s ∧
        .imports "latch" ∈ (Reading.ofText "import latch").tokens ∧
        "latch" ∈ Collection.all.map Collection.name := by
  have hrefused : ofText .person "import ./own" =
      .error (.importRefused .start "./own" .localPath) := rfl
  have hread : Reading.ofText "import latch" =
      ⟨[⟨.imports Collection.latch.name, .start⟩], .complete ⟨13, 1⟩⟩ := rfl
  have hlatch : Collection.latch ∈ Collection.all := by simp [Collection.all]
  obtain ⟨nodes, hnodes⟩ := exists_ofText_of_import .client hlatch hread
  obtain ⟨s, pos, hfold, -⟩ := exists_scaffold_of_ofTextWith hnodes
  have hpath : Token.imports "latch" ∈ (Reading.ofText "import latch").tokens := by
    rw [Reading.tokens, hread]
    exact .head _
  obtain ⟨hreworded, -⟩ := ofText_client "import ./own"
  obtain ⟨-, hcollection, hfront, -⟩ := ofText_client "import latch"
  rw [hrefused] at hreworded
  exact ⟨hrefused, hreworded, ⟨_, rfl, hcollection _ _ _ rfl⟩, nodes, s, hnodes, hfold, hpath,
    hfront _ _ _ List.prefix_rfl hfold _ hpath⟩

end Forest

end Gatework
