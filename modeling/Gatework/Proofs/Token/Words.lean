import Gatework.Proofs.Token.Lexing

/-!
# Whole words

Where a letter or an underscore stands, the token that is read there takes the whole word, which
goes on to the first character that can be in no name.  A word with a meaning of its own is read
as such only if nothing is stuck to it.

The header of a block is the exception.  What is stuck to its word is read as the name of the
block, if brackets and a brace follow.

There are three groups.

* `Token.keyword?` is the word with which a token starts.  `TakesWhole` says that a token takes
  the word in front of it as a whole, and `IsStuckHeader` is the exception.
* The readers.  All but the one for the headers of blocks find nothing where their word is not
  the whole word (`handles_of_ne`).
* `exists_scan_word`: what is read in front of a word.
-/

namespace Gatework.Token

/-! ## Words in front -/

/-- The word with which a token starts, if that has a meaning of its own. -/
def keyword? : Token → Option String
  | connective .conj => some "and"
  | connective .disj => some "or"
  | negation => some "not"
  | returns => some "return"
  | blockOpen _ _ => some "block"
  | imports _ => some "import"
  | assignment _ => some "let"
  | _ => none

/-- The word in front: the characters up to the first one that can be in no name. -/
def wordAt (cs : List Char) : List Char := cs.takeWhile isNameChar

/-- A token of `size` characters takes the word in front as a whole: the word is the identifier
that it is, or its keyword. -/
def TakesWhole (word : List Char) (token : Token) (size : Nat) : Prop :=
  (token = .identifier (String.ofList word) ∧ size = word.length) ∨
    token.keyword? = some (String.ofList word)

/-- A token is the header of a block whose name is stuck to the keyword. -/
def IsStuckHeader (word : List Char) (token : Token) : Prop :=
  ∃ name params, name ≠ "" ∧ token = .blockOpen name params ∧ word = headerWord ++ name.toList

/-! ## Readers -/

/-- Whatever a reader gives takes the word in front as a whole, or is a header stuck to a name. -/
def Handles (word rest : List Char) (reader : Scanner Token) : Prop :=
  ∀ ⦃token after⦄, reader.run ⟨0, word ++ rest⟩ = some (token, after) →
    TakesWhole word token after.taken ∨ IsStuckHeader word token

variable {word rest : List Char}

theorem handles_of_refuses {reader : Scanner Token} (h : Refuses reader (word ++ rest)) :
    Handles word rest reader := by
  intro token after hrun
  rw [h 0] at hrun
  exact absurd hrun nofun

/-- A reader of tokens with a keyword that finds nothing in front of other words. -/
theorem handles_of_ne {text : List Char} {reader : Scanner Token}
    (hrefuses : word ≠ text → Refuses reader (word ++ rest))
    (hyields : Yields (fun token => token.keyword? = some (String.ofList text)) reader) :
    Handles word rest reader := by
  by_cases hne : word = text
  · intro token after hrun
    exact Or.inl (Or.inr (hne ▸ hyields hrun))
  · exact handles_of_refuses (hrefuses hne)

section

variable (hword : word.all isNameChar = true) (hends : rest.head?.any isNameChar = false)
include hword hends

theorem handles_keyword {text : List Char} {token : Token} (htext : text.all isNameChar = true)
    (hkeyword : token.keyword? = some (String.ofList text)) :
    Handles word rest (do keyword text; return token) :=
  handles_of_ne (fun hne => refuses_bind (refuses_keyword_of_ne htext hword hends hne))
    (yields_bind fun _ => yields_pure hkeyword)

theorem handles_importLine : Handles word rest importLine := by
  refine handles_of_ne (refuses_importLine hword hends) (yields_bind fun _ => yields_bind
    fun gap => yields_bind fun line => ?_)
  dsimp only
  split
  · exact yields_nothing
  · exact yields_pure rfl

theorem handles_assignmentHeader : Handles word rest assignmentHeader := by
  refine handles_of_ne (refuses_assignmentHeader hword hends) (yields_bind fun _ => yields_bind
    fun ahead => ?_)
  split
  · refine yields_bind fun names => yields_bind fun _ => yields_bind fun _ => ?_
    split
    · exact yields_nothing
    · exact yields_pure rfl
  · exact yields_nothing

end

variable {c : Char} {cs : List Char}

theorem yields_blockHeader :
    Yields (fun token => token.keyword? = some (String.ofList headerWord)) blockHeader :=
  yields_bind fun _ => yields_bind fun _ => yields_bind fun _ => yields_bind fun _ =>
    yields_bind fun _ => yields_bind fun _ => yields_bind fun _ => yields_bind fun _ =>
    yields_bind fun _ => yields_pure rfl

/-- What is stuck to the word of a header is the name of the block. -/
theorem handles_blockHeader_of_stuck (hc : isNameChar c = true) (hcs : cs.all isNameChar = true)
    (hends : rest.head?.any isNameChar = false) :
    Handles (headerWord ++ c :: cs) rest blockHeader := by
  have hblanks : Reads blanks [] [] (c :: cs ++ rest) := reads_run rfl (isBlank_of_isNameChar hc)
  by_cases hstart : isNameStart c = true
  · have hname := reads_name (isName_ofList hstart hcs) hends
    rw [String.toList_ofList] at hname
    have hafter : Yields (fun token => ∃ params, token =
        Token.blockOpen (String.ofList (c :: cs)) params) (do
          let _ ← blanks
          word ['(']
          let params ← parameters (← ahead)
          let _ ← blanks
          word ['\x7b']
          return .blockOpen (String.ofList (c :: cs)) params) :=
      yields_bind fun _ => yields_bind fun _ => yields_bind fun _ => yields_bind fun params =>
        yields_bind fun _ => yields_bind fun _ => yields_pure ⟨params, rfl⟩
    intro token after hrun
    rw [headerWord, List.append_assoc, blockHeader, run_bind_of_reads (reads_word _ _),
      run_bind_of_reads_nil hblanks, run_bind_of_reads hname] at hrun
    obtain ⟨params, rfl⟩ := hafter hrun
    exact Or.inr ⟨_, params, by simp, rfl, by rw [String.toList_ofList]⟩
  · rw [Bool.not_eq_true] at hstart
    refine handles_of_refuses ?_
    rw [List.append_assoc]
    exact refuses_bind_of_reads (reads_word headerWord _)
      (refuses_bind_of_reads_nil hblanks (refuses_bind (refuses_name hstart)))

theorem handles_blockHeader (hword : word.all isNameChar = true)
    (hends : rest.head?.any isNameChar = false) : Handles word rest blockHeader := by
  by_cases hstarts : headerWord <+: word
  · obtain ⟨stuck, rfl⟩ := hstarts
    cases stuck with
    | nil =>
      rw [List.append_nil]
      exact handles_of_ne (fun hne => absurd rfl hne) yields_blockHeader
    | cons c cs =>
      rw [List.all_append, List.all_cons, Bool.and_eq_true, Bool.and_eq_true] at hword
      exact handles_blockHeader_of_stuck hword.2.1 hword.2.2 hends
  · refine handles_of_refuses ?_
    exact refuses_blockHeader_of_not_prefix hword hends hstarts

/-- An identifier is read to its end. -/
theorem reads_identifier (hname : isName (String.ofList word) = true)
    (hends : rest.head?.any isNameChar = false) :
    Reads (do return identifier (← name)) word (identifier (String.ofList word)) rest := by
  have hreads := reads_bind_pure identifier (reads_name hname hends)
  rwa [String.toList_ofList] at hreads

/-- No reader splits a word, but for the header of a block. -/
theorem handles_of_mem_scanners (hc : isNameStart c = true) (hcs : cs.all isNameChar = true)
    (hends : rest.head?.any isNameChar = false) :
    ∀ reader ∈ scanners, Handles (c :: cs) rest reader := by
  have hall : (c :: cs).all isNameChar = true := by
    rw [List.all_cons, isNameChar_of_isNameStart hc, hcs, Bool.and_self]
  have hmark {d : Char} {text : List Char} (hd : isNameStart d = false) :
      Refuses (word (d :: text)) (c :: cs ++ rest) :=
    refuses_word_of_ne (beq_eq_false_iff_ne.2 (ne_of_apply_ne isNameStart (by simp [hc, hd])))
  have hfixed {d : Char} {text : List Char} {token : Token} (hd : isNameStart d = false) :
      Handles (c :: cs) rest (do word (d :: text); return token) :=
    handles_of_refuses (refuses_bind (hmark hd))
  simp only [scanners, List.forall_mem_cons]
  refine ⟨handles_of_refuses (refuses_bind (hmark (by decide))),
    handles_of_refuses (refuses_bind (hmark (by decide))),
    handles_keyword hall hends (by decide) rfl, handles_keyword hall hends (by decide) rfl,
    handles_keyword hall hends (by decide) rfl, hfixed (by decide), hfixed (by decide),
    handles_blockHeader hall hends, hfixed (by decide),
    handles_keyword hall hends (by decide) rfl, handles_importLine hall hends,
    handles_assignmentHeader hall hends, ?_, hfixed (by decide), hfixed (by decide),
    fun reader hreader => absurd hreader List.not_mem_nil⟩
  intro token after hrun
  rw [reads_identifier (isName_ofList hc hcs) hends 0] at hrun
  cases hrun
  exact Or.inl (Or.inl ⟨rfl, Nat.zero_add _⟩)

/-! ## Tokens in front of words -/

/-- A letter or an underscore starts a token, and that takes the whole word in front.  Only the
header of a block may take its keyword alone, with the rest of the word as its name. -/
theorem exists_scan_word (hc : isNameStart c = true) : ∃ token size,
    scan (c :: cs) = some (token, size) ∧
      (TakesWhole (wordAt (c :: cs)) token size ∨ IsStuckHeader (wordAt (c :: cs)) token) := by
  have hword : wordAt (c :: cs) = c :: cs.takeWhile isNameChar :=
    List.takeWhile_cons_of_pos (isNameChar_of_isNameStart hc)
  have hcs : (cs.takeWhile isNameChar).all isNameChar = true := List.all_takeWhile
  have hends := any_head?_dropWhile isNameChar cs
  have hsplit : c :: cs = c :: cs.takeWhile isNameChar ++ cs.dropWhile isNameChar := by
    rw [List.cons_append, List.takeWhile_append_dropWhile]
  have hsome : (scanAt ⟨0, c :: cs⟩).isSome := by
    rw [scanAt, List.findSome?_isSome_iff, hsplit]
    refine ⟨do return identifier (← name), by simp [scanners], ?_⟩
    rw [reads_identifier (isName_ofList hc hcs) hends 0]
    rfl
  obtain ⟨⟨token, after⟩, hat⟩ := Option.isSome_iff_exists.1 hsome
  obtain ⟨reader, hmem, hrun⟩ := List.exists_of_findSome?_eq_some hat
  rw [hsplit] at hrun
  refine ⟨token, after.taken, by rw [scan, hat]; rfl, ?_⟩
  rw [hword]
  exact handles_of_mem_scanners hc hcs hends reader hmem hrun

/-- A word that only starts like a keyword. -/
def notable : List Char := ['n', 'o', 't', 'a', 'b', 'l', 'e']

theorem exists_scan_notable : ∃ token size, scan notable = some (token, size) ∧
    (TakesWhole (wordAt notable) token size ∨ IsStuckHeader (wordAt notable) token) :=
  exists_scan_word (by decide)

/-- The header of a block `ed`, which stands in front of the word `blocked`. -/
def blocked : List Char := ['b', 'l', 'o', 'c', 'k', 'e', 'd', '(', 'a', ')', ' ', '\x7b']

theorem not_takesWhole_blocked : ∃ token size, scan blocked = some (token, size) ∧
    isNameStart 'b' = true ∧ ¬ TakesWhole (wordAt blocked) token size := by
  refine ⟨.blockOpen "ed" ["a"], 12, by decide +kernel, by decide, ?_⟩
  rintro (⟨h, -⟩ | h)
  · exact absurd h nofun
  · exact absurd h (by decide +kernel)

end Gatework.Token
