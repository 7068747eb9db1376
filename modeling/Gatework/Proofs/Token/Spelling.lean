import Gatework.Proofs.Token.Reads

/-!
# Tokens and their texts

A token is found at the front of its text, whatever stands behind it.

There are four groups.

* `Token.text` is the text of a token.  The readers take the texts of regular tokens:
  those that are no comments and no imports, whose names are names, and whose
  identifiers are no keywords.
* `spaced`: words with spaces between them, and what stands behind the first of them.
* The readers of headers and of identifiers.  The word `block` at the start of an
  identifier is not taken for a header, since no brace follows the brackets behind it.
* `scan_text`: the token that is found at the front of its text.
-/

namespace Gatework

namespace Token

open Gatework.Text

/-! ## Texts of tokens -/

/-- The text of a token. -/
def text : Token → String
  | comment true text => "/* " ++ text ++ " */"
  | comment false text => "// " ++ text ++ "\n"
  | connective .conj => "and"
  | connective .disj => "or"
  | negation => "not"
  | groupOpen => "("
  | blockOpen name params => "block " ++ name ++ "(" ++ " ".intercalate params ++ ") \x7b"
  | close .round => ")"
  | close .brace => "\x7d"
  | returns => "return"
  | imports path => "import " ++ path ++ "\n"
  | assignment names => "let " ++ " ".intercalate names ++ " ="
  | identifier name => name
  | literal true => "1"
  | literal false => "0"

/-- The words that are no identifiers where a token can start. -/
def keywords : List String := ["and", "or", "not", "return", "let", "block", "import"]

/-- Whether a name can be that of an identifier or an invocation. -/
def isPlainName (name : String) : Bool := isName name && !keywords.contains name

/-- Whether a token is read again from its text, whatever tokens follow. -/
def isRegular : Token → Bool
  | comment _ _ | imports _ => false
  | blockOpen name params => isName name && params.all isName
  | assignment names => !names.isEmpty && names.all isName
  | identifier name => isPlainName name
  | _ => true

/-! ## Words with spaces between them -/

/-- Words with single spaces between them. -/
def spaced (words : List String) : List Char := (" ".intercalate words).toList

/-- What stands behind a word that others follow. -/
def behind (words : List String) : List Char :=
  match words with
  | [] => []
  | _ => ' ' :: spaced words

@[simp] theorem spaced_nil : spaced [] = [] := by
  rw [spaced, String.intercalate_nil]
  rfl

theorem spaced_cons (word : String) (words : List String) :
    spaced (word :: words) = word.toList ++ behind words := by
  cases words with
  | nil => simp [spaced, behind]
  | cons next words => simp [spaced, behind, String.toList_intercalate]

/-- At most one space stands between a word and the next one. -/
theorem exists_gap (words : List String) :
    ∃ gap, (gap = [] ∨ gap = [' ']) ∧ behind words = gap ++ spaced words := by
  cases words with
  | nil => exact ⟨[], .inl rfl, by simp [behind]⟩
  | cons word words => exact ⟨[' '], .inr rfl, rfl⟩

/-- A name ends where a space or nothing follows. -/
theorem behind_head? (words : List String) {p : Char → Bool} (hp : p ' ' = false) :
    (behind words).head?.any p = false := by
  cases words with
  | nil => rfl
  | cons word words => exact hp

/-- Names are not empty, so a text of names is at least as long as their list. -/
theorem length_le_length_spaced {names : List String} (h : names.all isName = true) :
    names.length ≤ (spaced names).length := by
  induction names with
  | nil => exact Nat.zero_le _
  | cons name names ih =>
    rw [List.all_cons, Bool.and_eq_true] at h
    obtain ⟨c, cs, hname, -, -⟩ := exists_of_isName h.1
    obtain ⟨gap, -, hgap⟩ := exists_gap names
    have hrest := ih h.2
    rw [spaced_cons, hgap, hname]
    simp only [List.length_cons, List.length_append]
    omega

/-! ## Headers -/

/-- The characters of names, by their numbers. -/
theorem toNat_of_isNameChar {c : Char} (h : isNameChar c = true) :
    48 ≤ c.toNat ∧ c.toNat ≤ 57 ∨ 65 ≤ c.toNat ∧ c.toNat ≤ 90 ∨ c.toNat = 95 ∨
      97 ≤ c.toNat ∧ c.toNat ≤ 122 := by
  have hranges : (((decide (65 ≤ c.val ∧ c.val ≤ 90) ||
      (decide (97 ≤ c.val) && decide (c.val ≤ 122))) ||
      (decide (48 ≤ c.val) && decide (c.val ≤ 57))) || c == '_') = true := h
  simp only [Bool.or_eq_true, Bool.and_eq_true, decide_eq_true_eq, beq_iff_eq,
    UInt32.le_iff_toNat_le] at hranges
  change ((65 ≤ c.toNat ∧ c.toNat ≤ 90 ∨ 97 ≤ c.toNat ∧ c.toNat ≤ 122) ∨
    48 ≤ c.toNat ∧ c.toNat ≤ 57) ∨ c = '_' at hranges
  rcases hranges with hranges | rfl
  · omega
  · exact .inr (.inr (.inl rfl))

/-- No character of a name is blank. -/
theorem isBlank_of_isNameChar {c : Char} (h : isNameChar c = true) : isBlank c = false := by
  have hnumber := toNat_of_isNameChar h
  simp only [isBlank, blankRanges, List.any_cons, List.any_nil, Bool.or_eq_false_iff,
    Bool.and_eq_false_iff, decide_eq_false_iff_not, and_true]
  omega

/-- A name starts with none of the characters that are in no name. -/
theorem head?_of_isName {name : String} (h : isName name = true) {p : Char → Bool}
    (hp : ∀ c, isNameChar c = true → p c = false) (rest : List Char) :
    (name.toList ++ rest).head?.any p = false := by
  obtain ⟨c, cs, hname, hc, -⟩ := exists_of_isName h
  rw [hname]
  exact hp c (isNameChar_of_isNameStart hc)

theorem ne_of_isNameChar {c d : Char} (hc : isNameChar c = true) (hd : isNameChar d = false) :
    c ≠ d := by
  rintro rfl
  rw [hc] at hd
  exact absurd hd nofun

/-- The names of an assignment, up to the space in front of the equals sign. -/
theorem reads_assignedNames {names : List String} (hnames : names.all isName = true)
    {bound : List Char} (hbound : names.length < bound.length) {gap : List Char}
    (hgap : (gap.all fun c => c = ' ') = true) (rest : List Char) :
    Reads (assignedNames bound) (gap ++ (spaced names ++ [' '])) names ('=' :: rest) := by
  obtain _ | ⟨b, bound⟩ := bound
  · exact absurd hbound (Nat.not_lt_zero _)
  induction names generalizing b bound gap with
  | nil =>
    have hspaces : Reads spaces (gap ++ [' ']) (gap ++ [' ']) ('=' :: rest) :=
      reads_run (by simpa using hgap) rfl
    rw [assignedNames, spaced_nil, List.nil_append, ← List.append_nil (gap ++ [' '])]
    refine reads_bind hspaces (reads_bind_nil (reads_ahead _) ?_)
    have hend : ('=' :: rest).head?.any isNameStart = false := rfl
    rw [List.nil_append, if_neg (by rw [hend]; exact Bool.false_ne_true)]
    exact reads_pure _ _
  | cons first names ih =>
    rw [List.all_cons, Bool.and_eq_true] at hnames
    obtain ⟨c, cs, hfirst, hc, -⟩ := exists_of_isName hnames.1
    obtain ⟨next, hnext, hbehind⟩ := exists_gap names
    obtain _ | ⟨b', bound⟩ := bound
    · simp at hbound
    have hmore : Reads (assignedNames (b' :: bound)) (next ++ (spaced names ++ [' '])) names
        ('=' :: rest) :=
      ih hnames.2 (by rcases hnext with rfl | rfl <;> rfl) b' bound (by simpa using hbound)
    rw [← List.append_assoc, ← hbehind] at hmore
    have hends : (behind names ++ [' '] ++ '=' :: rest).head?.any isNameChar = false := by
      cases names <;> rfl
    rw [assignedNames, spaced_cons, List.append_assoc]
    refine reads_bind (reads_run hgap ?_) (reads_bind_nil (reads_ahead _) ?_)
    · rw [List.append_assoc]
      exact head?_of_isName hnames.1
        (fun c hc => decide_eq_false (ne_of_isNameChar hc (by decide))) _
    · rw [if_pos (by simp [hfirst, hc])]
      exact reads_bind (reads_name hnames.1 (by simpa using hends)) (reads_bind_pure _ hmore)

/-- A parameter that stands for itself. -/
theorem reads_parameter {name : String} {rest : List Char} (hname : isName name = true)
    (hrest : rest.head?.any (fun c => isNameChar c || c == '[') = false) :
    Reads parameter name.toList [name] rest := by
  have hend : rest.head?.any isNameChar = false ∧ rest.head? ≠ some '[' := by
    cases rest with
    | nil => exact ⟨rfl, nofun⟩
    | cons c rest => simpa using hrest
  refine reads_bind_end (reads_name hname hend.1) (reads_bind_nil (reads_ahead _) ?_)
  rw [List.nil_append, if_neg hend.2]
  exact reads_pure _ _

/-- The parameters of a block, up to the bracket that closes them. -/
theorem reads_parameters {names : List String} (hnames : names.all isName = true)
    {bound : List Char} (hbound : names.length < bound.length) {gap : List Char}
    (hgap : gap.all isBlank = true) (rest : List Char) :
    Reads (parameters bound) (gap ++ (spaced names ++ [')'])) names rest := by
  obtain _ | ⟨b, bound⟩ := bound
  · exact absurd hbound (Nat.not_lt_zero _)
  induction names generalizing b bound gap with
  | nil =>
    rw [parameters, spaced_nil, List.nil_append]
    refine reads_bind (reads_run hgap rfl) (reads_bind_nil (reads_ahead _) ?_)
    rw [List.singleton_append, List.head?_cons, if_pos rfl]
    exact reads_bind_pure _ (reads_word _ _)
  | cons first names ih =>
    rw [List.all_cons, Bool.and_eq_true] at hnames
    obtain ⟨c, cs, hfirst, hc, -⟩ := exists_of_isName hnames.1
    obtain ⟨next, hnext, hbehind⟩ := exists_gap names
    obtain _ | ⟨b', bound⟩ := bound
    · simp at hbound
    have hmore : Reads (parameters (b' :: bound)) (next ++ (spaced names ++ [')'])) names rest :=
      ih hnames.2 (by rcases hnext with rfl | rfl <;> rfl) b' bound (by simpa using hbound)
    rw [← List.append_assoc, ← hbehind] at hmore
    have hends : (behind names ++ [')'] ++ rest).head?.any
        (fun c => isNameChar c || c == '[') = false := by
      cases names <;> rfl
    rw [parameters, spaced_cons, List.append_assoc]
    refine reads_bind (reads_run hgap ?_) (reads_bind_nil (reads_ahead _) ?_)
    · rw [List.append_assoc]
      exact head?_of_isName hnames.1 (fun c hc => isBlank_of_isNameChar hc) _
    · have hopen : (first.toList ++ (behind names ++ [')']) ++ rest).head? ≠ some ')' := by
        rw [hfirst]
        intro hhead
        exact ne_of_isNameChar (isNameChar_of_isNameStart hc) (by decide) (Option.some.inj hhead)
      rw [if_neg hopen]
      exact reads_bind (reads_parameter hnames.1 (by simpa using hends)) (reads_bind_pure _ hmore)

theorem toList_text_assignment (names : List String) :
    (assignment names).text.toList =
      ['l', 'e', 't'] ++ ([' '] ++ (spaced names ++ [' ']) ++ ['=']) := by
  simp [text, spaced]

/-- The header of an assignment also takes the spaces behind it. -/
theorem reads_assignmentHeader {names : List String} (hne : names ≠ [])
    (hnames : names.all isName = true) {gap : List Char} (hgap : (gap.all fun c => c = ' ') = true)
    {rest : List Char} (hrest : rest.head?.any (fun c => c = ' ') = false) :
    Reads assignmentHeader ((assignment names).text.toList ++ gap) (.assignment names) rest := by
  have hlength := length_le_length_spaced hnames
  rw [toList_text_assignment, List.append_assoc, List.append_assoc]
  refine reads_bind (reads_word _ _) (reads_bind_nil (reads_ahead _) ?_)
  rw [List.append_assoc, List.append_assoc, List.singleton_append, List.head?_cons, if_pos rfl,
    ← List.singleton_append]
  refine reads_bind (reads_assignedNames hnames ?_ rfl _) (reads_bind (reads_word _ _)
    (reads_bind_end (reads_run hgap hrest) ?_))
  · simp only [List.length_append, List.length_singleton]
    omega
  · rw [if_neg hne]
    exact reads_pure _ _

theorem toList_text_blockOpen (name : String) (params : List String) :
    (blockOpen name params).text.toList =
      ['b', 'l', 'o', 'c', 'k'] ++ ([' '] ++ (name.toList ++ ([] ++ (['('] ++
        (([] ++ (spaced params ++ [')'])) ++ ([' '] ++ ['\x7b'])))))) := by
  simp [text, spaced]

theorem reads_blockHeader {name : String} {params : List String} (hname : isName name = true)
    (hparams : params.all isName = true) (rest : List Char) :
    Reads blockHeader (blockOpen name params).text.toList (.blockOpen name params) rest := by
  rw [toList_text_blockOpen]
  refine reads_bind (reads_word _ _) (reads_bind (reads_run rfl ?_) (reads_bind
    (reads_name hname rfl) (reads_bind (reads_run rfl rfl) (reads_bind (reads_word _ _)
    (reads_bind_nil (reads_ahead _) (reads_bind (reads_parameters hparams ?_ rfl _)
    (reads_bind (reads_run rfl rfl) (reads_bind_pure _ (reads_word _ _)))))))))
  · rw [List.append_assoc]
    exact head?_of_isName hname (fun c hc => isBlank_of_isNameChar hc) _
  · have hlength := length_le_length_spaced hparams
    simp only [List.length_append, List.length_singleton]
    omega

/-! ## Identifiers -/

/-- Whether a character is none of the brackets around parameters. -/
def isInner (c : Char) : Bool := c != '(' && c != ')'

theorem isInner_of_isBlank {c : Char} (h : isBlank c = true) : isInner c = true := by
  rw [isInner, Bool.and_eq_true, bne_iff_ne, bne_iff_ne]
  constructor <;> rintro rfl <;> exact absurd h (by decide)

theorem isInner_of_isNameChar {c : Char} (h : isNameChar c = true) : isInner c = true := by
  rw [isInner, Bool.and_eq_true, bne_iff_ne, bne_iff_ne]
  exact ⟨ne_of_isNameChar h (by decide), ne_of_isNameChar h (by decide)⟩

theorem isInner_of_isDigit {c : Char} (h : c.isDigit = true) : isInner c = true := by
  apply isInner_of_isNameChar
  rw [isNameChar, Char.isAlphanum, h, Bool.or_true, Bool.true_or]

theorem all_isInner_of_isName {name : String} (h : isName name = true) :
    name.toList.all isInner = true := by
  rw [isName, Bool.and_eq_true, List.all_eq_true] at h
  rw [List.all_eq_true]
  exact fun c hc => isInner_of_isNameChar (h.2 c hc)

theorem all_isInner_spaced {names : List String} (h : names.all isName = true) :
    (spaced names).all isInner = true := by
  induction names with
  | nil => rw [spaced_nil, List.all_nil]
  | cons name names ih =>
    rw [List.all_cons, Bool.and_eq_true] at h
    obtain ⟨gap, hgap, hbehind⟩ := exists_gap names
    have hgapInner : gap.all isInner = true := by rcases hgap with rfl | rfl <;> decide
    rw [spaced_cons, hbehind, List.all_append, List.all_append, all_isInner_of_isName h.1,
      hgapInner, ih h.2]
    rfl

theorem within_parameter : Within isInner parameter := by
  refine within_bind (within_name fun c hc => isInner_of_isNameChar hc) fun name =>
    within_bind within_ahead fun rest => ?_
  split
  · refine within_bind (within_word rfl) fun _ => within_bind
      (within_run fun c hc => isInner_of_isDigit hc) fun digits => ?_
    split
    · exact within_nothing
    · exact within_bind (within_word rfl) fun _ => within_pure _
  · exact within_pure _

theorem dropWhile_of_all {p : Char → Bool} {text : List Char} (h : text.all p = true)
    (rest : List Char) : (text ++ rest).dropWhile p = rest.dropWhile p :=
  List.dropWhile_append_of_pos (List.all_eq_true.1 h)

/-- The parameters of a block end at the first bracket, which closes them. -/
theorem dropWhile_of_parameters {bound : List Char} {before after : Cursor} {names : List String}
    (h : (parameters bound).run before = some (names, after)) :
    before.rest.dropWhile isInner = ')' :: after.rest := by
  induction bound generalizing before names with
  | nil => exact absurd h nofun
  | cons b bound ih =>
    simp only [parameters, StateT.run_bind, Option.bind_eq_bind, Option.bind_eq_some_iff] at h
    obtain ⟨⟨gap, middle⟩, hblanks, ⟨front, cursor⟩, hahead, h⟩ := h
    obtain ⟨text, htext, hinner⟩ := within_run (fun c hc => isInner_of_isBlank hc) hblanks
    cases hahead
    rw [htext, dropWhile_of_all hinner]
    split at h
    · next hclose =>
      change middle.rest.head? = some ')' at hclose
      obtain ⟨rest, hrest⟩ := List.head?_eq_some_iff.1 hclose
      simp only [StateT.run_bind, Option.bind_eq_bind, Option.bind_eq_some_iff] at h
      obtain ⟨⟨_, last⟩, hword, hlast⟩ := h
      have hread := reads_word [')'] rest middle.taken
      rw [List.singleton_append, ← hrest] at hread
      cases hword.symm.trans hread
      cases hlast
      rw [hrest]
      rfl
    · simp only [StateT.run_bind, Option.bind_eq_bind, Option.bind_eq_some_iff] at h
      obtain ⟨⟨first, next⟩, hfirst, ⟨more, last⟩, hmore, hlast⟩ := h
      cases hlast
      obtain ⟨text, htext, hinner⟩ := within_parameter hfirst
      rw [htext, dropWhile_of_all hinner]
      exact ih hmore

theorem refuses_importLine {name rest : List Char} (hname : name.all isNameChar = true)
    (hrest : rest.head?.any isNameChar = false) (hne : name ≠ ['i', 'm', 'p', 'o', 'r', 't']) :
    Refuses importLine (name ++ rest) := by
  by_cases hstarts : ['i', 'm', 'p', 'o', 'r', 't'] <+: name ++ rest
  · obtain ⟨c, cs, rfl, hc, -⟩ := exists_of_prefix (by decide) hname hrest hne hstarts
    rw [List.append_assoc]
    refine refuses_bind_of_reads (reads_word _ _) (refuses_bind_of_reads_nil
      (reads_run rfl (isBlank_of_isNameChar hc)) (refuses_bind_of_forall fun line rest => ?_))
    rw [if_pos (.inl rfl)]
    exact refuses_nothing _
  · exact refuses_bind (refuses_word hstarts)

theorem refuses_assignmentHeader {name rest : List Char} (hname : name.all isNameChar = true)
    (hrest : rest.head?.any isNameChar = false) (hne : name ≠ ['l', 'e', 't']) :
    Refuses assignmentHeader (name ++ rest) := by
  by_cases hstarts : ['l', 'e', 't'] <+: name ++ rest
  · obtain ⟨c, cs, rfl, hc, -⟩ := exists_of_prefix (by decide) hname hrest hne hstarts
    rw [List.append_assoc]
    refine refuses_bind_of_reads (reads_word _ _) (refuses_bind_of_reads_nil (reads_ahead _) ?_)
    rw [List.cons_append, List.head?_cons,
      if_neg fun h => ne_of_isNameChar hc (by decide) (Option.some.inj h)]
    exact refuses_nothing _
  · exact refuses_bind (refuses_word hstarts)

/-- How the text of a token starts. -/
theorem exists_text {token : Token} (h : token.isRegular = true) :
    ∃ c cs, token.text.toList = c :: cs ∧ isBlank c = false ∧ c ≠ '\x7b' ∧
      (c = '(' → token = .groupOpen) := by
  cases token with
  | comment | imports => exact absurd h nofun
  | identifier name =>
    rw [isRegular, isPlainName, Bool.and_eq_true] at h
    obtain ⟨c, cs, hname, hc, -⟩ := exists_of_isName h.1
    have hchar := isNameChar_of_isNameStart hc
    exact ⟨c, cs, hname, isBlank_of_isNameChar hchar, ne_of_isNameChar hchar (by decide),
      fun hopen => absurd hopen (ne_of_isNameChar hchar (by decide))⟩
  | assignment names =>
    exact ⟨_, _, toList_text_assignment names, by decide, by decide, fun h => absurd h (by decide)⟩
  | blockOpen name params =>
    exact ⟨_, _, toList_text_blockOpen name params, by decide, by decide,
      fun h => absurd h (by decide)⟩
  | groupOpen => exact ⟨_, _, rfl, by decide, by decide, fun _ => rfl⟩
  | negation | returns =>
    exact ⟨_, _, rfl, by decide, by decide, fun h => absurd h (by decide)⟩
  | connective op =>
    cases op <;> exact ⟨_, _, rfl, by decide, by decide, fun h => absurd h (by decide)⟩
  | close bracket =>
    cases bracket <;> exact ⟨_, _, rfl, by decide, by decide, fun h => absurd h (by decide)⟩
  | literal value =>
    cases value <;> exact ⟨_, _, rfl, by decide, by decide, fun h => absurd h (by decide)⟩

/-- The first bracket in the texts of tokens is that of a token, and if it closes a
bracket then the other tokens stand behind it. -/
theorem exists_behind_of_dropWhile {tokens : List Token} (h : tokens.all isRegular = true)
    {after : List Char} (hafter : (spaced (tokens.map text)).dropWhile isInner = ')' :: after) :
    ∃ rest : List Token, rest.all isRegular = true ∧ after = behind (rest.map text) := by
  induction tokens with
  | nil =>
    rw [List.map_nil, spaced_nil] at hafter
    exact absurd hafter nofun
  | cons token tokens ih =>
    rw [List.all_cons, Bool.and_eq_true] at h
    rw [List.map_cons, spaced_cons] at hafter
    have hpast (hinner : token.text.toList.all isInner = true) :
        ∃ rest : List Token, rest.all isRegular = true ∧ after = behind (rest.map text) := by
      obtain ⟨gap, hgap, hbehind⟩ := exists_gap (tokens.map text)
      have hgapInner : gap.all isInner = true := by rcases hgap with rfl | rfl <;> decide
      rw [hbehind, dropWhile_of_all hinner, dropWhile_of_all hgapInner] at hafter
      exact ih h.2 hafter
    cases token with
    | comment | imports => exact absurd h.1 nofun
    | groupOpen => exact absurd hafter nofun
    | close bracket =>
      cases bracket with
      | round => exact ⟨tokens, h.2, (List.cons.inj hafter).2.symm⟩
      | brace => exact hpast (by decide)
    | blockOpen name params =>
      have hname := (Bool.and_eq_true_iff.1 h.1).1
      have hfront : (['b', 'l', 'o', 'c', 'k'] ++ ([' '] ++ name.toList)).all isInner = true := by
        rw [List.all_append, List.all_append, all_isInner_of_isName hname]
        rfl
      rw [toList_text_blockOpen, ← List.append_assoc [' '], ← List.append_assoc, List.append_assoc,
        dropWhile_of_all hfront] at hafter
      exact absurd hafter nofun
    | connective op => exact hpast (by cases op <;> decide)
    | negation | returns => exact hpast (by decide)
    | literal value => exact hpast (by cases value <;> decide)
    | identifier name => exact hpast (all_isInner_of_isName (Bool.and_eq_true_iff.1 h.1).1)
    | assignment names =>
      have hnames := all_isInner_spaced (Bool.and_eq_true_iff.1 h.1).2
      apply hpast
      rw [toList_text_assignment, List.all_append, List.all_append, List.all_append,
        List.all_append, hnames]
      rfl

/-- How the texts of tokens start. -/
theorem head?_spaced {tokens : List Token} (h : tokens.all isRegular = true) :
    (spaced (tokens.map text)).head?.any isBlank = false ∧
      (spaced (tokens.map text)).head? ≠ some '\x7b' ∧
      ((spaced (tokens.map text)).head? = some '(' → ∃ rest, tokens = .groupOpen :: rest) := by
  cases tokens with
  | nil =>
    rw [List.map_nil, spaced_nil]
    exact ⟨rfl, nofun, nofun⟩
  | cons token tokens =>
    rw [List.all_cons, Bool.and_eq_true] at h
    obtain ⟨c, cs, htext, hblank, hbrace, hopen⟩ := exists_text h.1
    rw [List.map_cons, spaced_cons, htext]
    refine ⟨hblank, fun hhead => hbrace (Option.some.inj hhead), fun hhead => ?_⟩
    rw [hopen (Option.some.inj hhead)]
    exact ⟨tokens, rfl⟩

/-- Blanks are dropped from what stands behind a token. -/
theorem reads_blanks {tokens : List Token} (h : tokens.all isRegular = true) :
    ∃ gap, behind (tokens.map text) = gap ++ spaced (tokens.map text) ∧
      Reads blanks gap gap (spaced (tokens.map text)) := by
  obtain ⟨gap, hgap, hbehind⟩ := exists_gap (tokens.map text)
  have hblank : gap.all isBlank = true := by rcases hgap with rfl | rfl <;> decide
  exact ⟨gap, hbehind, reads_run hblank (head?_spaced h).1⟩

/-- No brace follows the brackets that tokens close, so these hold no parameters of
a block. -/
theorem refuses_blockParameters {tokens : List Token} (h : tokens.all isRegular = true)
    (name : String) :
    Refuses (do
      let params ← parameters (← ahead)
      let _ ← blanks
      word ['\x7b']
      return .blockOpen name params : Scanner Token) (behind (tokens.map text)) := by
  refine refuses_bind_of_reads_nil (reads_ahead _) fun taken => ?_
  rw [Option.eq_none_iff_forall_ne_some]
  rintro ⟨token, cursor⟩ hrun
  rw [StateT.run_bind, Option.bind_eq_bind, Option.bind_eq_some_iff] at hrun
  obtain ⟨⟨params, taken', rest⟩, hparams, hrun⟩ := hrun
  have hclose := dropWhile_of_parameters hparams
  obtain ⟨front, hfront, hbehind⟩ := exists_gap (tokens.map text)
  have hinner : front.all isInner = true := by rcases hfront with rfl | rfl <;> decide
  rw [hbehind, dropWhile_of_all hinner] at hclose
  obtain ⟨after, hafter, rfl⟩ := exists_behind_of_dropWhile h hclose
  obtain ⟨gap, hgap, hblanks⟩ := reads_blanks hafter
  have hrefuses : Refuses (blanks >>= fun _ => word ['\x7b'] >>= fun _ =>
      pure (.blockOpen name params) : Scanner Token) (gap ++ spaced (after.map text)) := by
    refine refuses_bind_of_reads hblanks (refuses_bind (refuses_word ?_))
    rintro ⟨more, hmore⟩
    exact (head?_spaced hafter).2.1 (by rw [← hmore]; rfl)
  rw [← hgap] at hrefuses
  exact absurd ((hrefuses taken').symm.trans hrun) nofun

/-- A longer name that starts like a block header is no block header. -/
theorem refuses_blockHeader {name : List Char} (hname : name.all isNameChar = true)
    (hne : name ≠ ['b', 'l', 'o', 'c', 'k']) {tokens : List Token}
    (h : tokens.all isRegular = true) :
    Refuses blockHeader (name ++ behind (tokens.map text)) := by
  have hends : (behind (tokens.map text)).head?.any isNameChar = false := behind_head? _ (by decide)
  by_cases hstarts : ['b', 'l', 'o', 'c', 'k'] <+: name ++ behind (tokens.map text)
  · obtain ⟨c, cs, rfl, hc, hcs⟩ := exists_of_prefix (by decide) hname hends hne hstarts
    rw [List.append_assoc]
    refine refuses_bind_of_reads (reads_word _ _) (refuses_bind_of_reads_nil
      (reads_run rfl (isBlank_of_isNameChar hc)) ?_)
    by_cases hstart : isNameStart c = true
    · have hread := reads_name (isName_ofList hstart hcs) hends
      rw [String.toList_ofList] at hread
      refine refuses_bind_of_reads hread ?_
      obtain ⟨gap, hgap, hblanks⟩ := reads_blanks h
      rw [hgap]
      refine refuses_bind_of_reads hblanks ?_
      by_cases hopen : (spaced (tokens.map text)).head? = some '('
      · obtain ⟨rest, rfl⟩ := (head?_spaced h).2.2 hopen
        rw [List.all_cons, Bool.and_eq_true] at h
        rw [List.map_cons, spaced_cons]
        exact refuses_bind_of_reads (reads_word ['('] _) (refuses_blockParameters h.2 _)
      · refine refuses_bind (refuses_word ?_)
        rintro ⟨more, hmore⟩
        exact hopen (by rw [← hmore]; rfl)
    · rw [Bool.not_eq_true] at hstart
      exact refuses_bind (refuses_name hstart)
  · exact refuses_bind (refuses_word hstarts)

/-! ## Reading the texts of tokens -/

/-- Whether a token is a word, which ends where no identifier character follows. -/
def isWord : Token → Bool
  | connective _ | negation | returns | identifier _ => true
  | _ => false

/-- A name is read as an identifier where it is not the start of a block header. -/
theorem scan_identifier {name : String} (h : isPlainName name = true) {rest : List Char}
    (hends : rest.head?.any isNameChar = false)
    (hheader : Refuses blockHeader (name.toList ++ rest)) :
    scan (name.toList ++ rest) = some (.identifier name, name.toList.length) := by
  rw [isPlainName, Bool.and_eq_true, Bool.not_eq_true'] at h
  obtain ⟨hname, hkeyword⟩ := h
  obtain ⟨c, cs, htext, hc, -⟩ := exists_of_isName hname
  have hall : name.toList.all isNameChar = true := (Bool.and_eq_true_iff.1 hname).2
  have hne {word : List Char} (hword : String.ofList word ∈ keywords) : name.toList ≠ word := by
    rintro rfl
    rw [String.ofList_toList] at hword
    rw [List.contains_iff_mem.2 hword] at hkeyword
    exact absurd hkeyword nofun
  have hfixed {d : Char} {word : List Char} (hd : isNameChar d = false) :
      Refuses (Token.word (d :: word)) (name.toList ++ rest) := by
    rw [htext]
    exact refuses_word_of_ne (beq_eq_false_iff_ne.2
      (ne_of_isNameChar (isNameChar_of_isNameStart hc) hd))
  refine scan_of_reads 12 rfl ?_ (reads_bind_pure _ (reads_name hname hends))
  simp only [scanners, List.take_succ_cons, List.take_zero, List.forall_mem_cons]
  refine ⟨refuses_bind (hfixed (by decide)), refuses_bind (hfixed (by decide)),
    refuses_bind (refuses_keyword_of_ne (by decide) hall hends (hne (by decide))),
    refuses_bind (refuses_keyword_of_ne (by decide) hall hends (hne (by decide))),
    refuses_bind (refuses_keyword_of_ne (by decide) hall hends (hne (by decide))),
    refuses_bind (hfixed (by decide)), refuses_bind (hfixed (by decide)),
    hheader, refuses_bind (hfixed (by decide)),
    refuses_bind (refuses_keyword_of_ne (by decide) hall hends (hne (by decide))),
    refuses_importLine hall hends (hne (by decide)),
    refuses_assignmentHeader hall hends (hne (by decide)), ?_⟩
  exact fun reader hreader => absurd hreader List.not_mem_nil

/-- The spaces at the front of a text. -/
theorem exists_spaces (cs : List Char) : ∃ gap after, cs = gap ++ after ∧
    (gap.all fun c => c = ' ') = true ∧ after.head?.any (fun c => c = ' ') = false :=
  ⟨_, _, List.takeWhile_append_dropWhile.symm, List.all_takeWhile, any_head?_dropWhile _ cs⟩

/-- A token is read from its text.  The header of an assignment takes the spaces behind it
with it. -/
theorem scan_text {token : Token} (h : token.isRegular = true) {rest : List Char}
    (hends : token.isWord = true → rest.head?.any isNameChar = false)
    (hheader : ∀ name, token = .identifier name → Refuses blockHeader (name.toList ++ rest)) :
    ∃ gap after, rest = gap ++ after ∧ (gap.all fun c => c = ' ') = true ∧
      scan (token.text.toList ++ rest) = some (token, (token.text.toList ++ gap).length) := by
  have hplain (hscan : scan (token.text.toList ++ rest) = some (token, token.text.toList.length)) :
      ∃ gap after, rest = gap ++ after ∧ (gap.all fun c => c = ' ') = true ∧
        scan (token.text.toList ++ rest) = some (token, (token.text.toList ++ gap).length) :=
    ⟨[], rest, rfl, rfl, by rw [List.append_nil, hscan]⟩
  cases token with
  | comment | imports => exact absurd h nofun
  | connective op =>
    have hkeyword := hends rfl
    cases op with
    | conj =>
      exact hplain (scan_of_initial 2 rfl (by decide) (reads_bind_pure _ (reads_keyword hkeyword)))
    | disj =>
      exact hplain (scan_of_initial 3 rfl (by decide) (reads_bind_pure _ (reads_keyword hkeyword)))
  | negation =>
    exact hplain (scan_of_initial 4 rfl (by decide) (reads_bind_pure _ (reads_keyword (hends rfl))))
  | groupOpen =>
    exact hplain (scan_of_initial 5 rfl (by decide) (reads_bind_pure _ (reads_word _ _)))
  | blockOpen name params =>
    rw [isRegular, Bool.and_eq_true] at h
    have hreads := reads_blockHeader h.1 h.2 rest
    apply hplain
    rw [toList_text_blockOpen] at hreads ⊢
    exact scan_of_initial 7 rfl (by decide) hreads
  | close bracket =>
    cases bracket with
    | round =>
      exact hplain (scan_of_initial 6 rfl (by decide) (reads_bind_pure _ (reads_word _ _)))
    | brace =>
      exact hplain (scan_of_initial 8 rfl (by decide) (reads_bind_pure _ (reads_word _ _)))
  | returns =>
    exact hplain (scan_of_initial 9 rfl (by decide) (reads_bind_pure _ (reads_keyword (hends rfl))))
  | assignment names =>
    rw [isRegular, Bool.and_eq_true, Bool.not_eq_true', List.isEmpty_eq_false_iff] at h
    obtain ⟨gap, after, rfl, hgap, hafter⟩ := exists_spaces rest
    have hreads := reads_assignmentHeader h.1 h.2 hgap hafter
    refine ⟨gap, after, rfl, hgap, ?_⟩
    rw [← List.append_assoc]
    rw [toList_text_assignment] at hreads ⊢
    exact scan_of_initial 11 rfl (by decide) hreads
  | identifier name => exact hplain (scan_identifier h (hends rfl) (hheader name rfl))
  | literal value =>
    cases value with
    | true =>
      exact hplain (scan_of_initial 13 rfl (by decide) (reads_bind_pure _ (reads_word _ _)))
    | false =>
      exact hplain (scan_of_initial 14 rfl (by decide) (reads_bind_pure _ (reads_word _ _)))

end Token

end Gatework
