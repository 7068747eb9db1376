import Gatework.Lexeme
import Gatework.Proofs.Token.Spelling

/-!
# Texts token by token

A text in front of another one is read as some tokens, if each of them ends before the other
text begins.

There are three groups.

* `Lexes` says that a text is read as some tokens, and the reading goes on behind it.  Such
  texts are put together piece by piece.
* The texts of single tokens, and tokens that are written with single spaces between them.
* `isSpelled` is a check of a whole text with any gaps between its tokens.
-/

namespace Gatework

/-! ## Pieces of a text -/

/-- A text in front of another is read as some tokens, wherever it stands. -/
def Lexes (text : List Char) (tokens : List Token) (rest : List Char) : Prop :=
  ∀ pos, ∃ next,
    (readFrom 0 pos (text ++ rest)).lexemes.map Lexeme.token =
        tokens ++ (readFrom 0 next rest).lexemes.map Lexeme.token ∧
      (readFrom 0 pos (text ++ rest)).ending = (readFrom 0 next rest).ending

/-- The characters of a token that has been read are passed over. -/
theorem readFrom_append (front : List Char) (pos : Position) (rest : List Char) :
    readFrom front.length pos (front ++ rest) =
      readFrom 0 (front.foldl Position.advance pos) rest := by
  induction front generalizing pos with
  | nil => rfl
  | cons c front ih =>
    rw [List.length_cons, List.cons_append, readFrom, ih]
    rfl

/-- The gap in front of a text is passed over. -/
theorem readFrom_gap {gap : List Char} (h : gap.all isGap = true) (pos : Position)
    (rest : List Char) :
    readFrom 0 pos (gap ++ rest) = readFrom 0 (gap.foldl Position.skip pos) rest := by
  induction gap generalizing pos with
  | nil => rfl
  | cons c gap ih =>
    rw [List.all_cons, Bool.and_eq_true] at h
    rw [List.cons_append, readFrom, if_pos h.1, ih h.2, List.foldl_cons]

/-- A space takes the same room in a token and between two. -/
theorem foldl_advance_spaces {spaces : List Char} (h : (spaces.all fun c => c = ' ') = true)
    (pos : Position) : spaces.foldl Position.advance pos = spaces.foldl Position.skip pos := by
  refine List.foldl_ext _ _ pos fun pos c hc => ?_
  cases of_decide_eq_true (List.all_eq_true.1 h c hc)
  rfl

theorem isGap_of_not_isBlank {c : Char} (h : Text.isBlank c = false) : isGap c = false := by
  by_contra hgap
  simp only [isGap, Bool.not_eq_false, Bool.or_eq_true, beq_iff_eq] at hgap
  rcases hgap with ((rfl | rfl) | rfl) | rfl <;> exact absurd h (by decide)

theorem all_isGap_of_spaces {spaces : List Char} (h : (spaces.all fun c => c = ' ') = true) :
    spaces.all isGap = true := by
  rw [List.all_eq_true] at h ⊢
  intro c hc
  cases of_decide_eq_true (h c hc)
  rfl

namespace Lexes

variable {front back rest : List Char} {tokens more : List Token}

theorem nil (rest : List Char) : Lexes [] [] rest := fun pos => ⟨pos, rfl, rfl⟩

theorem append (h : Lexes front tokens (back ++ rest)) (h' : Lexes back more rest) :
    Lexes (front ++ back) (tokens ++ more) rest := by
  intro pos
  obtain ⟨middle, htokens, hending⟩ := h pos
  obtain ⟨next, htokens', hending'⟩ := h' middle
  refine ⟨next, ?_, ?_⟩
  · rw [List.append_assoc, htokens, htokens', List.append_assoc]
  · rw [List.append_assoc, hending, hending']

theorem gap {gap : List Char} (h : gap.all isGap = true) (rest : List Char) :
    Lexes gap [] rest := fun pos =>
  ⟨gap.foldl Position.skip pos, by rw [readFrom_gap h]; rfl, by rw [readFrom_gap h]⟩

/-- A token that is found in front of a text.  The spaces that it takes with it may as well
stand behind it. -/
theorem of_scan_spaces {c : Char} {cs spaces : List Char} {token : Token} (hc : isGap c = false)
    (hspaces : (spaces.all fun c => c = ' ') = true)
    (hscan : Token.scan (c :: cs ++ (spaces ++ rest)) =
      some (token, (c :: cs ++ spaces).length)) :
    Lexes (c :: cs) [token] (spaces ++ rest) := by
  intro pos
  have hpast : readFrom (cs ++ spaces).length (pos.advance c) (cs ++ (spaces ++ rest)) =
      readFrom 0 (cs.foldl Position.advance (pos.advance c)) (spaces ++ rest) := by
    rw [readFrom_gap (all_isGap_of_spaces hspaces), ← foldl_advance_spaces hspaces,
      ← List.foldl_append, ← readFrom_append, List.append_assoc]
  rw [List.cons_append, List.cons_append, List.length_cons] at hscan
  refine ⟨cs.foldl Position.advance (pos.advance c), ?_⟩
  rw [List.cons_append, readFrom, if_neg (by rw [hc]; exact Bool.false_ne_true), hscan]
  dsimp only
  rw [Nat.add_sub_cancel, hpast]
  exact ⟨rfl, rfl⟩

theorem of_scan {c : Char} {cs : List Char} {token : Token} (hc : isGap c = false)
    (hscan : Token.scan (c :: cs ++ rest) = some (token, (c :: cs).length)) :
    Lexes (c :: cs) [token] rest := by
  have hspaces : Token.scan (c :: cs ++ ([] ++ rest)) = some (token, (c :: cs ++ []).length) := by
    rw [List.append_nil]
    exact hscan
  have hlexes : Lexes (c :: cs) [token] ([] ++ rest) := of_scan_spaces hc rfl hspaces
  exact hlexes

/-- A text that is read to its end. -/
theorem complete {cs : List Char} (h : Lexes cs tokens []) (pos : Position) :
    (readFrom 0 pos cs).lexemes.map Lexeme.token = tokens ∧
      ∃ last, (readFrom 0 pos cs).ending = .complete last := by
  obtain ⟨next, htokens, hending⟩ := h pos
  rw [List.append_nil] at htokens hending
  rw [readFrom, List.map_nil, List.append_nil] at htokens
  rw [readFrom] at hending
  exact ⟨htokens, next, hending⟩

theorem reading {text : String} (h : Lexes text.toList tokens []) :
    (Reading.ofText text).lexemes.map Lexeme.token = tokens ∧
      ∃ last, (Reading.ofText text).ending = .complete last :=
  h.complete .start

end Lexes

/-! ## The texts of tokens -/

namespace Token

/-- A token is read from its text, if that ends where the token does. -/
theorem lexes_text {token : Token} (h : token.isRegular = true) {rest : List Char}
    (hends : token.isWord = true → rest.head?.any isNameChar = false)
    (hheader : ∀ name, token = .identifier name → Refuses blockHeader (name.toList ++ rest)) :
    Lexes token.text.toList [token] rest := by
  obtain ⟨c, cs, htext, hblank, -⟩ := exists_text h
  obtain ⟨gap, after, rfl, hgap, hscan⟩ := scan_text h hends hheader
  rw [htext] at hscan ⊢
  exact .of_scan_spaces (isGap_of_not_isBlank hblank) hgap hscan

/-- A line that imports a path, which does not start or end with a blank. -/
theorem lexes_importLine {path : String} {rest : List Char} (hpath : path ≠ "")
    (hblank : path.toList.head?.any Text.isBlank = false)
    (htrim : Text.dropTrailingBlanks path.toList = path.toList)
    (hline : path.toList.all (· ≠ '\n') = true)
    (hrest : rest.head?.any (fun c => c ≠ '\n') = false) :
    Lexes ("import " ++ path).toList [.imports path] rest := by
  have hne : path.toList ≠ [] := fun hnil => hpath (String.toList_eq_nil_iff.1 hnil)
  have hreads : Reads importLine (['i', 'm', 'p', 'o', 'r', 't'] ++ ([' '] ++ path.toList))
      (.imports path) rest := by
    refine reads_bind (reads_word _ _) (reads_bind (reads_run rfl ?_)
      (reads_bind_end (reads_run hline hrest) ?_))
    · cases hchars : path.toList with
      | nil => exact absurd hchars hne
      | cons c cs =>
        rw [hchars] at hblank
        exact hblank
    · dsimp only
      rw [htrim, String.ofList_toList, if_neg (not_or.2 ⟨List.cons_ne_nil _ _, hne⟩)]
      exact reads_pure _ _
  have htext : ("import " ++ path).toList =
      'i' :: (['m', 'p', 'o', 'r', 't'] ++ ([' '] ++ path.toList)) := by
    simp
  rw [htext]
  exact .of_scan rfl (scan_of_initial 10 rfl (by decide) hreads)

/-- Tokens that are written with single spaces between them are read again. -/
theorem lexes_spaced {tokens : List Token} (h : tokens.all isRegular = true) :
    Lexes (spaced (tokens.map text)) tokens [] := by
  induction tokens with
  | nil =>
    rw [List.map_nil, spaced_nil]
    exact .nil []
  | cons token tokens ih =>
    rw [List.all_cons, Bool.and_eq_true] at h
    obtain ⟨gap, hgap, hbehind⟩ := exists_gap (tokens.map text)
    have hgaps : gap.all isGap = true := by rcases hgap with rfl | rfl <;> rfl
    have htoken : Lexes token.text.toList [token] (behind (tokens.map text)) := by
      refine lexes_text h.1 (fun _ => behind_head? _ (by decide)) ?_
      rintro name rfl
      have hplain := Bool.and_eq_true_iff.1 h.1
      have hname := Bool.and_eq_true_iff.1 hplain.1
      refine refuses_blockHeader hname.2 (fun hheader => ?_) h.2
      have hword : name = "block" := String.toList_inj.1 hheader
      rw [hword] at hplain
      exact absurd hplain.2 (by decide)
    rw [List.map_cons, spaced_cons]
    have hrest : Lexes (behind (tokens.map text)) ([] ++ tokens) [] := by
      rw [hbehind]
      exact .append (.gap hgaps _) (ih h.2)
    exact .append (by rw [List.append_nil]; exact htoken) hrest

end Token

theorem tokens_readFrom_spaced {tokens : List Token} (h : tokens.all Token.isRegular = true)
    (pos : Position) :
    (readFrom 0 pos (Token.spaced (tokens.map Token.text))).lexemes.map Lexeme.token = tokens ∧
      ∃ last, (readFrom 0 pos (Token.spaced (tokens.map Token.text))).ending = .complete last :=
  (Token.lexes_spaced h).complete pos

/-! ## Whole texts -/

namespace Token

open Gatework.Text (trimOnce)

/-- A line comment ends with its line. -/
theorem lexes_lineComment {content : String} (hline : content.toList.all (· ≠ '\n') = true)
    (htrim : trimOnce (' ' :: content.toList) = content.toList) (rest : List Char) :
    Lexes (comment false content).text.toList [comment false content] rest := by
  have hbody : (' ' :: content.toList).all (· ≠ '\n') = true := by
    rw [List.all_cons, hline]
    rfl
  have hmarks : ¬ ['/', '*'] <+: '/' :: '/' :: ' ' :: content.toList ++ '\n' :: rest := by
    rintro ⟨more, hmore⟩
    cases hmore
  have hreads : Reads lineComment (['/', '/'] ++ ' ' :: content.toList)
      (comment false (String.ofList (trimOnce (' ' :: content.toList)))) ('\n' :: rest) :=
    reads_bind (reads_word _ _) (reads_bind_pure _ (reads_run hbody rfl))
  rw [htrim, String.ofList_toList] at hreads
  have hlexes : Lexes ('/' :: '/' :: ' ' :: content.toList) [comment false content]
      ('\n' :: rest) :=
    .of_scan rfl (scan_of_reads 1 rfl
      (List.forall_mem_singleton.2 (refuses_bind (refuses_word hmarks))) hreads)
  have hgap : Lexes ['\n'] [] rest := .gap rfl rest
  have htext : (comment false content).text.toList =
      ('/' :: '/' :: ' ' :: content.toList) ++ ['\n'] := by
    simp [text]
  rw [htext]
  exact hlexes.append hgap

/-- The word with which the header of a block starts. -/
def headerWord : List Char := ['b', 'l', 'o', 'c', 'k']

/-- A name is not taken for a header if it does not start like one. -/
theorem refuses_blockHeader_of_not_prefix {name rest : List Char}
    (hname : name.all isNameChar = true) (hends : rest.head?.any isNameChar = false)
    (hstarts : ¬ headerWord <+: name) : Refuses blockHeader (name ++ rest) := by
  refine refuses_bind (refuses_word fun hheader => hstarts ?_)
  have hne : name ≠ headerWord := fun heq => hstarts (heq ▸ List.prefix_rfl)
  obtain ⟨c, cs, rfl, -⟩ := exists_of_prefix (by decide) hname hends hne hheader
  exact List.prefix_append _ _

/-- Whether the text of a token ends where it meets another text, whatever stands behind. -/
def endsBefore (front : List Char) : Token → Bool
  | comment false content =>
    content.toList.all (· ≠ '\n') && trimOnce (' ' :: content.toList) == content.toList
  | identifier name =>
    isPlainName name && !headerWord.isPrefixOf name.toList && front.head?.any fun c => !isNameChar c
  | token => token.isRegular && (!token.isWord || front.head?.any fun c => !isNameChar c)

/-- A text that goes on without an identifier character does so whatever stands behind. -/
theorem head?_append_of_any {front : List Char}
    (h : (front.head?.any fun c => !isNameChar c) = true) (rest : List Char) :
    (front ++ rest).head?.any isNameChar = false := by
  cases front with
  | nil => exact absurd h nofun
  | cons c front => exact Bool.not_eq_true' _ ▸ h

theorem lexes_of_endsBefore {token : Token} {front : List Char}
    (h : token.endsBefore front = true) (rest : List Char) :
    Lexes token.text.toList [token] (front ++ rest) := by
  have hother (hends : (token.isRegular &&
        (!token.isWord || front.head?.any fun c => !isNameChar c)) = true)
      (hname : ∀ name, token ≠ .identifier name) :
      Lexes token.text.toList [token] (front ++ rest) := by
    rw [Bool.and_eq_true, Bool.or_eq_true, Bool.not_eq_true'] at hends
    refine lexes_text hends.1 (fun hword => ?_) fun name heq => absurd heq (hname name)
    exact head?_append_of_any (hends.2.resolve_left (by simp [hword])) rest
  cases token with
  | comment multiline content =>
    cases multiline with
    | true => exact hother h nofun
    | false =>
      rw [endsBefore, Bool.and_eq_true, beq_iff_eq] at h
      exact lexes_lineComment h.1 h.2 _
  | identifier name =>
    rw [endsBefore, Bool.and_eq_true, Bool.and_eq_true, Bool.not_eq_true'] at h
    obtain ⟨⟨hplain, hstarts⟩, hfront⟩ := h
    have hends := head?_append_of_any hfront rest
    have hname := (Bool.and_eq_true_iff.1 (Bool.and_eq_true_iff.1 hplain).1).2
    have hregular : (identifier name).isRegular = true := hplain
    refine lexes_text hregular (fun _ => hends) fun _ heq => ?_
    cases heq
    refine refuses_blockHeader_of_not_prefix hname hends fun hprefix => ?_
    rw [List.isPrefixOf_iff_prefix.2 hprefix] at hstarts
    exact absurd hstarts nofun
  | _ => exact hother h nofun

end Token

/-- Whether a text is made of the texts of tokens, with gaps between them, and all of them end
in it. -/
def isSpelled : List Token → List Char → Bool
  | [], cs => cs.all isGap
  | token :: tokens, cs =>
    match Token.afterWord token.text.toList (cs.dropWhile isGap) with
    | some rest => token.endsBefore rest && isSpelled tokens rest
    | none => false

theorem lexes_of_isSpelled {tokens : List Token} {cs : List Char}
    (h : isSpelled tokens cs = true) (rest : List Char) : Lexes cs tokens rest := by
  induction tokens generalizing cs with
  | nil => exact .gap h rest
  | cons token tokens ih =>
    rw [isSpelled] at h
    split at h
    · next after hafter =>
      rw [Bool.and_eq_true] at h
      have hsplit : cs = cs.takeWhile isGap ++ (token.text.toList ++ after) := by
        rw [← Token.afterWord_eq_some_iff.1 hafter, List.takeWhile_append_dropWhile]
      have hgap : (cs.takeWhile isGap).all isGap = true := List.all_takeWhile
      have htokens := (Token.lexes_of_endsBefore h.1 rest).append (ih h.2)
      rw [hsplit]
      exact (Lexes.gap hgap _).append htokens
    · exact absurd h nofun

end Gatework
