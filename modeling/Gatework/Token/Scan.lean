import Gatework.Text.Blank
import Gatework.Text.Digits
import Gatework.Token

/-!
# Reading one token

`scan` reads the token at the front of a list of characters, and gives it with
the number of its characters.

There are six groups.

* `Cursor` is a place in a text, and `Scanner` a reader from there on.  A reader
  is `Faithful` if the characters that it counts as read are those in front of
  the ones that it leaves, and this passes to readers that are made of others.
* Pieces that tokens are made of: single characters, runs of characters, and
  fixed words.
* Keywords, which are words that no identifier character follows, and
  identifiers.
* Comments.
* Headers: the parameters of a block, the path of an import, and the names of an
  assignment.
* `scanners` lists the readers of the kinds of token in order.  The first that
  reads a token wins, so words with a meaning come before identifiers.
  `scan_eq_some` says that the number is that of characters in front.
-/

namespace Gatework

namespace Token

open Gatework.Text

/-! ## Readers -/

/-- A place in a text: the number of characters that have been read, and the
characters from there on. -/
structure Cursor where
  taken : Nat
  rest : List Char

/-- A reader of the text from a place on.  It may find nothing. -/
abbrev Scanner (α : Type) := StateT Cursor Option α

/-- A reader counts the characters that it reads. -/
def Faithful {α : Type} (reader : Scanner α) : Prop :=
  ∀ ⦃before a after⦄, reader.run before = some (a, after) →
    ∃ read, before.rest = read ++ after.rest ∧ after.taken = before.taken + read.length

theorem faithful_pure {α : Type} (a : α) : Faithful (pure a : Scanner α) := by
  intro before b after h
  simp only [StateT.run_pure, Option.pure_def, Option.some.injEq, Prod.mk.injEq] at h
  obtain ⟨-, rfl⟩ := h
  exact ⟨[], rfl, rfl⟩

theorem faithful_bind {α β : Type} {first : Scanner α} {next : α → Scanner β}
    (hf : Faithful first) (hn : ∀ a, Faithful (next a)) : Faithful (first >>= next) := by
  intro before b after h
  simp only [StateT.run_bind, Option.bind_eq_bind, Option.bind_eq_some_iff] at h
  obtain ⟨⟨a, middle⟩, h₁, h₂⟩ := h
  obtain ⟨read₁, e₁, t₁⟩ := hf h₁
  obtain ⟨read₂, e₂, t₂⟩ := hn a h₂
  refine ⟨read₁ ++ read₂, ?_, ?_⟩
  · rw [e₁, e₂, List.append_assoc]
  · rw [t₂, t₁, List.length_append, Nat.add_assoc]

/-- The reader that finds nothing. -/
def nothing {α : Type} : Scanner α := fun _ => none

theorem faithful_nothing {α : Type} : Faithful (nothing : Scanner α) := by
  intro before a after h
  simp [nothing, StateT.run] at h

/-! ## Pieces -/

/-- Gives the characters from here on, and reads none. -/
def ahead : Scanner (List Char) := fun cursor => some (cursor.rest, cursor)

/-- Reads a character of some kind. -/
def char (p : Char → Bool) : Scanner Char := fun cursor =>
  match cursor.rest with
  | [] => none
  | c :: cs => if p c then some (c, ⟨cursor.taken + 1, cs⟩) else none

/-- Reads all characters of some kind. -/
def run (p : Char → Bool) : Scanner (List Char) := fun cursor =>
  let read := cursor.rest.takeWhile p
  some (read, ⟨cursor.taken + read.length, cursor.rest.dropWhile p⟩)

/-- The characters after a fixed word. -/
def afterWord : List Char → List Char → Option (List Char)
  | [], cs => some cs
  | _ :: _, [] => none
  | w :: ws, c :: cs => if w = c then afterWord ws cs else none

/-- A fixed word is found exactly where the characters start with it. -/
theorem afterWord_eq_some_iff {word cs rest : List Char} :
    afterWord word cs = some rest ↔ cs = word ++ rest := by
  induction word generalizing cs with
  | nil => simp [afterWord]
  | cons w ws ih =>
    cases cs with
    | nil => simp [afterWord]
    | cons c cs =>
      by_cases h : w = c
      · simp [afterWord, h, ih]
      · simp [afterWord, h, Ne.symm h]

/-- Reads a fixed word. -/
def word (word : List Char) : Scanner Unit := fun cursor =>
  (afterWord word cursor.rest).map fun rest => ((), ⟨cursor.taken + word.length, rest⟩)

theorem faithful_ahead : Faithful ahead := by
  intro before a after h
  simp only [ahead, StateT.run, Option.some.injEq, Prod.mk.injEq] at h
  obtain ⟨-, rfl⟩ := h
  exact ⟨[], rfl, rfl⟩

theorem faithful_char (p : Char → Bool) : Faithful (char p) := by
  intro before a after h
  simp only [char, StateT.run] at h
  split at h
  · simp at h
  · next c cs hcs =>
    split at h
    · simp only [Option.some.injEq, Prod.mk.injEq] at h
      obtain ⟨-, rfl⟩ := h
      exact ⟨[c], by simp [hcs], rfl⟩
    · simp at h

theorem faithful_run (p : Char → Bool) : Faithful (run p) := by
  intro before a after h
  simp only [run, StateT.run, Option.some.injEq, Prod.mk.injEq] at h
  obtain ⟨-, rfl⟩ := h
  exact ⟨before.rest.takeWhile p, List.takeWhile_append_dropWhile.symm, rfl⟩

theorem faithful_word (text : List Char) : Faithful (word text) := by
  intro before a after h
  simp only [word, StateT.run, Option.map_eq_some_iff, Prod.mk.injEq] at h
  obtain ⟨rest, hrest, -, rfl⟩ := h
  exact ⟨text, afterWord_eq_some_iff.1 hrest, rfl⟩

/-! ## Keywords and identifiers -/

/-- Whether an identifier can start with a character. -/
def isNameStart (c : Char) : Bool := c.isAlpha || c == '_'

/-- Whether an identifier can go on with a character. -/
def isNameChar (c : Char) : Bool := c.isAlphanum || c == '_'

/-- Reads a word that no identifier character follows. -/
def keyword (text : List Char) : Scanner Unit := do
  word text
  let rest ← ahead
  if rest.head?.any isNameChar then nothing else pure ()

/-- Reads an identifier. -/
def name : Scanner String := do
  let first ← char isNameStart
  let more ← run isNameChar
  return String.ofList (first :: more)

theorem faithful_keyword (text : List Char) : Faithful (keyword text) := by
  refine faithful_bind (faithful_word text) fun _ => faithful_bind faithful_ahead fun rest => ?_
  split
  · exact faithful_nothing
  · exact faithful_pure _

theorem faithful_name : Faithful name :=
  faithful_bind (faithful_char _) fun _ => faithful_bind (faithful_run _) fun _ =>
    faithful_pure _

/-! ## Comments -/

/-- The text up to the first closing mark of a comment, and the characters after
the mark. -/
def commentBody : List Char → Option (List Char × List Char)
  | [] => none
  | '*' :: '/' :: rest => some ([], rest)
  | c :: cs => do
    let (body, rest) ← commentBody cs
    some (c :: body, rest)

theorem eq_append_of_commentBody {cs body rest : List Char}
    (h : commentBody cs = some (body, rest)) : cs = body ++ '*' :: '/' :: rest := by
  induction cs using commentBody.induct generalizing body with
  | case1 => simp [commentBody] at h
  | case2 tail =>
    simp only [commentBody, Option.some.injEq, Prod.mk.injEq] at h
    obtain ⟨rfl, rfl⟩ := h
    rfl
  | case3 c cs hne ih =>
    rw [commentBody.eq_3 c cs hne] at h
    simp only [Option.bind_eq_bind, Option.bind_eq_some_iff, Option.some.injEq,
      Prod.mk.injEq] at h
    obtain ⟨⟨inner, tail⟩, hin, rfl, rfl⟩ := h
    rw [ih hin]
    rfl

/-- Reads the text of a comment and its closing mark. -/
def commentRest : Scanner (List Char) := fun cursor => do
  let (body, rest) ← commentBody cursor.rest
  some (body, ⟨cursor.taken + (body.length + 2), rest⟩)

theorem faithful_commentRest : Faithful commentRest := by
  intro before a after h
  simp only [commentRest, StateT.run, Option.bind_eq_bind, Option.bind_eq_some_iff,
    Option.some.injEq, Prod.mk.injEq] at h
  obtain ⟨⟨body, rest⟩, hb, -, rfl⟩ := h
  refine ⟨body ++ ['*', '/'], ?_, ?_⟩
  · simp [eq_append_of_commentBody hb]
  · simp

/-- Reads a comment between marks. -/
def multilineComment : Scanner Token := do
  word ['/', '*']
  let body ← commentRest
  return .comment true (String.ofList (trimOnce body))

/-- Reads the rest of a line, without its line break. -/
def line : Scanner (List Char) := run (· ≠ '\n')

/-- Reads a comment that goes on to the end of its line. -/
def lineComment : Scanner Token := do
  word ['/', '/']
  let body ← line
  return .comment false (String.ofList (trimOnce body))

/-! ## Headers -/

/-- Reads blanks. -/
def blanks : Scanner (List Char) := run isBlank

/-- Reads one parameter, and gives the names for which it stands: `bus[3]` is
short for `bus0 bus1 bus2`. -/
def parameter : Scanner (List String) := do
  let name ← name
  let rest ← ahead
  if rest.head? = some '[' then do
    word ['[']
    let digits ← run Char.isDigit
    match readWord64 digits with
    | none => nothing
    | some width => do
      word [']']
      return (List.range width).map fun index => s!"{name}{index}"
  else
    return [name]

/-- Reads the parameters of a block up to the closing bracket.  The first argument
bounds their number: it is as long as the text. -/
def parameters : List Char → Scanner (List String)
  | [] => nothing
  | _ :: bound => do
    let _ ← blanks
    let rest ← ahead
    if rest.head? = some ')' then do
      word [')']
      return []
    else do
      let names ← parameter
      let more ← parameters bound
      return names ++ more

/-- Reads a block header, `block NAME(PARAM PARAM[WIDTH] …)` and the opening
brace. -/
def blockHeader : Scanner Token := do
  word ['b', 'l', 'o', 'c', 'k']
  let _ ← blanks
  let name ← name
  let _ ← blanks
  word ['(']
  let params ← parameters (← ahead)
  let _ ← blanks
  word ['\x7b']
  return .blockOpen name params

/-- Reads an import.  The path is the rest of the line, up to its last character
that is not blank. -/
def importLine : Scanner Token := do
  word ['i', 'm', 'p', 'o', 'r', 't']
  let gap ← blanks
  let path := dropTrailingBlanks (← line)
  if gap = [] ∨ path = [] then nothing else return .imports (String.ofList path)

/-- Reads spaces. -/
def spaces : Scanner (List Char) := run (· = ' ')

/-- Reads the names of an assignment and the spaces around them.  The first
argument bounds their number: it is as long as the text. -/
def assignedNames : List Char → Scanner (List String)
  | [] => return []
  | _ :: bound => do
    let _ ← spaces
    let rest ← ahead
    if rest.head?.any isNameStart then do
      let name ← name
      let more ← assignedNames bound
      return name :: more
    else
      return []

/-- Reads the left-hand side of an assignment, `let NAME NAME … =`, and the spaces
after it. -/
def assignmentHeader : Scanner Token := do
  word ['l', 'e', 't']
  let rest ← ahead
  if rest.head? = some ' ' then do
    let names ← assignedNames rest
    word ['=']
    let _ ← spaces
    if names = [] then nothing else return .assignment names
  else
    nothing

theorem faithful_parameter : Faithful parameter := by
  refine faithful_bind faithful_name fun name => faithful_bind faithful_ahead fun rest => ?_
  split
  · refine faithful_bind (faithful_word _) fun _ => faithful_bind (faithful_run _) fun digits => ?_
    split
    · exact faithful_nothing
    · exact faithful_bind (faithful_word _) fun _ => faithful_pure _
  · exact faithful_pure _

theorem faithful_parameters (bound : List Char) : Faithful (parameters bound) := by
  induction bound with
  | nil => exact faithful_nothing
  | cons c bound ih =>
    refine faithful_bind (faithful_run _) fun _ => faithful_bind faithful_ahead fun rest => ?_
    split
    · exact faithful_bind (faithful_word _) fun _ => faithful_pure _
    · exact faithful_bind faithful_parameter fun _ => faithful_bind ih fun _ => faithful_pure _

theorem faithful_assignedNames (bound : List Char) : Faithful (assignedNames bound) := by
  induction bound with
  | nil => exact faithful_pure _
  | cons c bound ih =>
    refine faithful_bind (faithful_run _) fun _ => faithful_bind faithful_ahead fun rest => ?_
    split
    · exact faithful_bind faithful_name fun _ => faithful_bind ih fun _ => faithful_pure _
    · exact faithful_pure _

/-! ## All tokens -/

/-- The readers of the kinds of token, in the order in which they are tried. -/
def scanners : List (Scanner Token) := [
  multilineComment,
  lineComment,
  do keyword ['a', 'n', 'd']; return .connective .conj,
  do keyword ['o', 'r']; return .connective .disj,
  do keyword ['n', 'o', 't']; return .negation,
  do word ['(']; return .groupOpen,
  do word [')']; return .close .round,
  blockHeader,
  do word ['\x7d']; return .close .brace,
  do keyword ['r', 'e', 't', 'u', 'r', 'n']; return .returns,
  importLine,
  assignmentHeader,
  do return .identifier (← name),
  do word ['1']; return .literal true,
  do word ['0']; return .literal false]

theorem faithful_of_mem_scanners {reader : Scanner Token} (h : reader ∈ scanners) :
    Faithful reader := by
  have fixed (text : List Char) (token : Token) :
      Faithful (do word text; return token : Scanner Token) :=
    faithful_bind (faithful_word text) fun _ => faithful_pure _
  have key (text : List Char) (token : Token) :
      Faithful (do keyword text; return token : Scanner Token) :=
    faithful_bind (faithful_keyword text) fun _ => faithful_pure _
  simp only [scanners, List.mem_cons, List.not_mem_nil, or_false] at h
  rcases h with rfl | rfl | rfl | rfl | rfl | rfl | rfl | rfl | rfl | rfl | rfl | rfl | rfl |
    rfl | rfl
  · exact faithful_bind (faithful_word _) fun _ => faithful_bind faithful_commentRest fun _ =>
      faithful_pure _
  · exact faithful_bind (faithful_word _) fun _ => faithful_bind (faithful_run _) fun _ =>
      faithful_pure _
  · exact key _ _
  · exact key _ _
  · exact key _ _
  · exact fixed _ _
  · exact fixed _ _
  · exact faithful_bind (faithful_word _) fun _ => faithful_bind (faithful_run _) fun _ =>
      faithful_bind faithful_name fun _ => faithful_bind (faithful_run _) fun _ =>
      faithful_bind (faithful_word _) fun _ => faithful_bind faithful_ahead fun _ =>
      faithful_bind (faithful_parameters _) fun _ => faithful_bind (faithful_run _) fun _ =>
      faithful_bind (faithful_word _) fun _ => faithful_pure _
  · exact fixed _ _
  · exact key _ _
  · refine faithful_bind (faithful_word _) fun _ => faithful_bind (faithful_run _) fun _ =>
      faithful_bind (faithful_run _) fun _ => ?_
    dsimp only
    split
    · exact faithful_nothing
    · exact faithful_pure _
  · refine faithful_bind (faithful_word _) fun _ => faithful_bind faithful_ahead fun rest => ?_
    split
    · refine faithful_bind (faithful_assignedNames _) fun names =>
        faithful_bind (faithful_word _) fun _ => faithful_bind (faithful_run _) fun _ => ?_
      split
      · exact faithful_nothing
      · exact faithful_pure _
    · exact faithful_nothing
  · exact faithful_bind faithful_name fun _ => faithful_pure _
  · exact fixed _ _
  · exact fixed _ _

/-- The token at the front, and the place after it. -/
def scanAt (cursor : Cursor) : Option (Token × Cursor) :=
  scanners.findSome? fun reader => reader.run cursor

/-- The token at the front, and the number of its characters. -/
def scan (cs : List Char) : Option (Token × Nat) :=
  (scanAt ⟨0, cs⟩).map fun (token, after) => (token, after.taken)

/-- The token at the front has as many characters as are in front of those that
its reader leaves. -/
theorem scan_eq_some {cs : List Char} {token : Token} {size : Nat}
    (h : scan cs = some (token, size)) :
    ∃ text rest, cs = text ++ rest ∧ text.length = size ∧
      scanAt ⟨0, cs⟩ = some (token, ⟨size, rest⟩) := by
  simp only [scan, Option.map_eq_some_iff, Prod.mk.injEq] at h
  obtain ⟨⟨found, taken, rest⟩, hat, rfl, rfl⟩ := h
  obtain ⟨reader, hmem, hrun⟩ := List.exists_of_findSome?_eq_some hat
  obtain ⟨text, hcs, hsize⟩ := faithful_of_mem_scanners hmem hrun
  exact ⟨text, rest, hcs, by simpa using hsize.symm, hat⟩

end Token

end Gatework
