import Gatework.Proofs.Token.Lexing
import Mathlib.Data.List.DropRight

/-!
# Exact positions

The position of a token is that of the bytes before it.  The column counts the line breaks among
them.  The row counts those of the last line, apart from carriage returns between tokens, and
starts at one.  Only where the last line break lies inside a token does it start at zero.

There are four groups.

* `PassedByte` is a byte before some place of a text, and `Position.behind` the position that
  the bytes before a place give it.
* `skip` and `advance` give one more character its bytes.
* No token is empty.
* `Comes` says how the reading of a text gets to a place, and `isExact_ofText` that tokens and
  the end of what can be read have the positions of their places.
-/

namespace Gatework

/-! ## Passed bytes -/

/-- A byte before a place of a text. -/
structure PassedByte where
  byte : UInt8
  /-- Whether it has been skipped between two tokens. -/
  skipped : Bool

namespace PassedByte

/-- Whether a byte is a line break. -/
def isBreak (b : PassedByte) : Bool := b.byte == 10

/-- Whether a byte counts in its line.  All do but the carriage returns between tokens. -/
def counts (b : PassedByte) : Bool := !(b.skipped && b.byte == 13)

end PassedByte

/-- The bytes of characters that are all skipped, or all inside a token. -/
def passing (skipped : Bool) (cs : List Char) : List PassedByte :=
  (cs.flatMap String.utf8EncodeChar).map fun byte => ⟨byte, skipped⟩

/-- The bytes behind the last line break. -/
def lastLine (passed : List PassedByte) : List PassedByte :=
  passed.rtakeWhile fun b => !b.isBreak

/-- The last line break. -/
def lastBreak? (passed : List PassedByte) : Option PassedByte :=
  (passed.filter PassedByte.isBreak).getLast?

/-- The row at the start of a line, from the line break before it. -/
def firstRow : Option PassedByte → Nat
  | some lineBreak => if lineBreak.skipped then 1 else 0
  | none => 1

/-- The position behind some bytes. -/
def Position.behind (passed : List PassedByte) : Position where
  row := (lastLine passed).countP PassedByte.counts + firstRow (lastBreak? passed)
  col := 1 + passed.countP PassedByte.isBreak

theorem passing_append (skipped : Bool) (front back : List Char) :
    passing skipped (front ++ back) = passing skipped front ++ passing skipped back := by
  simp [passing]

/-! ## One more character -/

namespace Position

variable {passed : List PassedByte}

theorem behind_append {bytes : List PassedByte} (h : ∀ b ∈ bytes, b.isBreak = false) :
    behind (passed ++ bytes) =
      ⟨(behind passed).row + bytes.countP PassedByte.counts, (behind passed).col⟩ := by
  have hnone : bytes.filter PassedByte.isBreak = [] :=
    List.filter_eq_nil_iff.2 fun b hb => by simp [h b hb]
  have hbreak : lastBreak? (passed ++ bytes) = lastBreak? passed := by
    rw [lastBreak?, List.filter_append, hnone, List.append_nil, lastBreak?]
  have hline : lastLine (passed ++ bytes) = lastLine passed ++ bytes := by
    have hall : ∀ b ∈ bytes.reverse, (!b.isBreak) = true := fun b hb => by
      rw [h b (List.mem_reverse.1 hb), Bool.not_false]
    rw [lastLine, List.rtakeWhile, List.reverse_append, List.takeWhile_append_of_pos hall,
      List.reverse_append, List.reverse_reverse]
    rfl
  have hcount : bytes.countP PassedByte.isBreak = 0 := by
    rw [List.countP_eq_length_filter, hnone, List.length_nil]
  rw [behind, behind, mk.injEq, hbreak, hline, List.countP_append, List.countP_append, hcount]
  exact ⟨Nat.add_right_comm _ _ _, rfl⟩

theorem behind_break (skipped : Bool) :
    behind (passed ++ [⟨10, skipped⟩]) = ⟨if skipped then 1 else 0, (behind passed).col + 1⟩ := by
  have hbreak : lastBreak? (passed ++ [⟨10, skipped⟩]) = some ⟨10, skipped⟩ := by
    simp [lastBreak?, PassedByte.isBreak]
  have hline : lastLine (passed ++ [⟨10, skipped⟩]) = [] := by
    rw [lastLine, List.rtakeWhile_concat]
    rfl
  rw [behind, behind, mk.injEq, hbreak, hline, List.countP_append, List.countP_nil, Nat.zero_add]
  exact ⟨rfl, (Nat.add_assoc _ _ _).symm⟩

theorem behind_skip {c : Char} (hc : isGap c = true) :
    behind (passed ++ passing true [c]) = (behind passed).skip c := by
  simp only [isGap, Bool.or_eq_true, beq_iff_eq] at hc
  obtain ((rfl | rfl) | rfl) | rfl := hc
  · exact behind_append (by decide)
  · exact behind_append (by decide)
  · exact behind_break true
  · exact behind_append (by decide)

/-- A line break is no part of another character. -/
theorem ne_of_mem_utf8EncodeChar {c : Char} (hc : c ≠ '\n') :
    ∀ byte ∈ String.utf8EncodeChar c, byte ≠ 10 := by
  have hval : c.toNat ≠ 10 := fun h => hc (Char.ext (UInt32.toNat.inj h))
  unfold String.utf8EncodeChar
  dsimp only
  -- A character is its own byte, or all of its bytes are 128 or more.
  split_ifs
  all_goals
    simp only [Char.toNat_val, List.forall_mem_cons, ne_eq, ← UInt8.toNat_inj, UInt8.toNat_ofNat',
      UInt8.toNat_ofNat, List.not_mem_nil, false_implies, implies_true, and_true] at *
    omega

theorem behind_advance (c : Char) :
    behind (passed ++ passing false [c]) = (behind passed).advance c := by
  by_cases hc : c = '\n'
  · subst hc
    exact behind_break false
  · have hbytes : passing false [c] =
        (String.utf8EncodeChar c).map fun byte => ⟨byte, false⟩ := by
      simp [passing]
    have hno : ∀ b ∈ passing false [c], b.isBreak = false := by
      rw [hbytes, List.forall_mem_map]
      exact fun byte hbyte => beq_false_of_ne (ne_of_mem_utf8EncodeChar hc byte hbyte)
    have hcount : (passing false [c]).countP PassedByte.counts = c.utf8Size := by
      rw [hbytes, List.countP_map, ← String.length_utf8EncodeChar]
      exact List.countP_eq_length.2 fun _ _ => rfl
    rw [behind_append hno, hcount, advance, if_neg hc]

theorem behind_foldl_advance (word : List Char) :
    behind (passed ++ passing false word) = word.foldl advance (behind passed) := by
  induction word generalizing passed with
  | nil => exact congrArg behind (List.append_nil passed)
  | cons c word ih =>
    rw [List.foldl_cons, ← behind_advance, ← ih, List.append_assoc, ← passing_append]
    rfl

end Position

/-! ## Tokens are not empty -/

namespace Token

/-- A reader does not find anything unless it reads a character. -/
def Advances {α : Type} (reader : Scanner α) : Prop :=
  ∀ ⦃before a after⦄, reader.run before = some (a, after) → before.taken < after.taken

theorem advances_bind {α β : Type} {first : Scanner α} {next : α → Scanner β}
    (hfirst : Advances first) (hnext : ∀ a, Faithful (next a)) : Advances (first >>= next) := by
  intro before b after h
  simp only [StateT.run_bind, Option.bind_eq_bind, Option.bind_eq_some_iff] at h
  obtain ⟨⟨a, middle⟩, h₁, h₂⟩ := h
  obtain ⟨read, -, htaken⟩ := hnext a h₂
  exact lt_of_lt_of_le (hfirst h₁) (htaken ▸ Nat.le_add_right _ _)

theorem advances_word (c : Char) (cs : List Char) : Advances (word (c :: cs)) := by
  intro before a after h
  simp only [word, StateT.run, Option.map_eq_some_iff, Prod.mk.injEq] at h
  obtain ⟨rest, -, -, rfl⟩ := h
  exact Nat.lt_add_of_pos_right (Nat.succ_pos _)

theorem advances_keyword (c : Char) (cs : List Char) : Advances (keyword (c :: cs)) := by
  refine advances_bind (advances_word c cs) fun _ => faithful_bind faithful_ahead fun rest => ?_
  split
  · exact faithful_nothing
  · exact faithful_pure _

theorem advances_name : Advances name := by
  refine advances_bind (fun before c after h => ?_) fun _ =>
    faithful_bind (faithful_run _) fun _ => faithful_pure _
  simp only [char, StateT.run] at h
  split at h
  · cases h
  · split at h <;> cases h
    exact Nat.lt_succ_self _

theorem advances_of_mem_scanners {reader : Scanner Token} (h : reader ∈ scanners) :
    Advances reader := by
  have fixed (c : Char) (cs : List Char) (token : Token) :
      Advances (do word (c :: cs); return token : Scanner Token) :=
    advances_bind (advances_word c cs) fun _ => faithful_pure _
  have key (c : Char) (cs : List Char) (token : Token) :
      Advances (do keyword (c :: cs); return token : Scanner Token) :=
    advances_bind (advances_keyword c cs) fun _ => faithful_pure _
  simp only [scanners, List.mem_cons, List.not_mem_nil, or_false] at h
  rcases h with rfl | rfl | rfl | rfl | rfl | rfl | rfl | rfl | rfl | rfl | rfl | rfl | rfl |
    rfl | rfl
  · exact advances_bind (advances_word _ _) fun _ => faithful_bind faithful_commentRest fun _ =>
      faithful_pure _
  · exact advances_bind (advances_word _ _) fun _ => faithful_bind (faithful_run _) fun _ =>
      faithful_pure _
  · exact key _ _ _
  · exact key _ _ _
  · exact key _ _ _
  · exact fixed _ _ _
  · exact fixed _ _ _
  · exact advances_bind (advances_word _ _) fun _ => faithful_bind (faithful_run _) fun _ =>
      faithful_bind faithful_name fun _ => faithful_bind (faithful_run _) fun _ =>
      faithful_bind (faithful_word _) fun _ => faithful_bind faithful_ahead fun _ =>
      faithful_bind (faithful_parameters _) fun _ => faithful_bind (faithful_run _) fun _ =>
      faithful_bind (faithful_word _) fun _ => faithful_pure _
  · exact fixed _ _ _
  · exact key _ _ _
  · refine advances_bind (advances_word _ _) fun _ => faithful_bind (faithful_run _) fun _ =>
      faithful_bind (faithful_run _) fun _ => ?_
    dsimp only
    split
    · exact faithful_nothing
    · exact faithful_pure _
  · refine advances_bind (advances_word _ _) fun _ => faithful_bind faithful_ahead fun rest => ?_
    split
    · refine faithful_bind (faithful_assignedNames _) fun names =>
        faithful_bind (faithful_word _) fun _ => faithful_bind (faithful_run _) fun _ => ?_
      split
      · exact faithful_nothing
      · exact faithful_pure _
    · exact faithful_nothing
  · exact advances_bind advances_name fun _ => faithful_pure _
  · exact fixed _ _ _
  · exact fixed _ _ _

/-- A token is a word that is not empty in front of the rest. -/
theorem exists_word_of_scan {cs : List Char} {token : Token} {size : Nat}
    (h : scan cs = some (token, size)) :
    ∃ word rest, cs = word ++ rest ∧ word.length = size ∧ word ≠ [] := by
  obtain ⟨word, rest, hcs, hsize, hat⟩ := scan_eq_some h
  obtain ⟨reader, hreader, hrun⟩ := List.exists_of_findSome?_eq_some hat
  have hpos : 0 < size := advances_of_mem_scanners hreader hrun
  exact ⟨word, rest, hcs, hsize, List.length_pos_iff.1 (hsize ▸ hpos)⟩

end Token

/-! ## The way of the reading -/

/-- The reading of a text comes to a place, with some bytes and some tokens before it and a rest
of the text behind it. -/
inductive Comes (text : List Char) : List PassedByte → List Token → List Char → Prop
  | start : Comes text [] [] text
  | skip {passed : List PassedByte} {tokens : List Token} {c : Char} {rest : List Char}
      (h : Comes text passed tokens (c :: rest)) (hgap : isGap c = true) :
      Comes text (passed ++ passing true [c]) tokens rest
  | read {passed : List PassedByte} {tokens : List Token} {word rest : List Char} {token : Token}
      (h : Comes text passed tokens (word ++ rest))
      (hgap : (word ++ rest).head?.any isGap = false)
      (hscan : Token.scan (word ++ rest) = some (token, word.length)) :
      Comes text (passed ++ passing false word) (tokens ++ [token]) rest

section Comes

variable {text rest : List Char} {passed : List PassedByte} {tokens : List Token}

theorem map_byte_passing (skipped : Bool) (cs : List Char) :
    (passing skipped cs).map PassedByte.byte = cs.flatMap String.utf8EncodeChar := by
  rw [passing, List.map_map]
  exact List.map_id _

theorem Comes.flatMap_utf8EncodeChar (h : Comes text passed tokens rest) :
    text.flatMap String.utf8EncodeChar =
      passed.map PassedByte.byte ++ rest.flatMap String.utf8EncodeChar := by
  induction h with
  | start => rfl
  | skip _ _ ih =>
    rw [ih, List.map_append, map_byte_passing, List.append_assoc, ← List.flatMap_append]
    rfl
  | read _ _ _ ih =>
    rw [ih, List.map_append, map_byte_passing, List.append_assoc, ← List.flatMap_append]

/-- The bytes that have been passed are the first ones of the text, up to the offset of the
place. -/
theorem Comes.take_toUTF8 {text : String} (h : Comes text.toList passed tokens rest) :
    text.toUTF8.data.toList.take passed.length = passed.map PassedByte.byte := by
  have hbytes : text.toUTF8.data.toList = text.toList.flatMap String.utf8EncodeChar := by
    rw [String.toUTF8_eq_toByteArray, ← String.ofList_toList (s := text),
      String.toByteArray_ofList, String.toList_ofList, List.utf8Encode, List.data_toByteArray]
  rw [hbytes, h.flatMap_utf8EncodeChar, List.take_left' (List.length_map _)]

/-- A token is found at a place of the text, behind some tokens, and has the position of this
place. -/
def Lexeme.IsExact (text : List Char) (before : List Token) (lexeme : Lexeme) : Prop :=
  ∃ passed rest size, Comes text passed before rest ∧ rest.head?.any isGap = false ∧
    Token.scan rest = some (lexeme.token, size) ∧ lexeme.pos = .behind passed

/-- What can be read ends behind some tokens, at the end of the text or where no token begins, and
has the position of this place. -/
def Ending.IsExact (text : List Char) (tokens : List Token) : Ending → Prop
  | complete pos => ∃ passed, Comes text passed tokens [] ∧ pos = .behind passed
  | stuck pos excerpt => ∃ passed rest, Comes text passed tokens rest ∧ rest ≠ [] ∧
      rest.head?.any isGap = false ∧ Token.scan rest = none ∧ pos = .behind passed ∧
      excerpt = String.ofList (rest.take excerptLength)

/-- All tokens of a reading, and its end, have the positions of their places. -/
structure Reading.IsExact (text : List Char) (before : List Token) (reading : Reading) : Prop where
  lexeme : ∀ front lexeme back, reading.lexemes = front ++ lexeme :: back →
    lexeme.IsExact text (before ++ front.map Lexeme.token)
  ending : reading.ending.IsExact text (before ++ reading.lexemes.map Lexeme.token)

namespace Reading.IsExact

variable {before : List Token}

theorem nil {ending : Ending} (h : ending.IsExact text before) :
    Reading.IsExact text before ⟨[], ending⟩ where
  lexeme front lexeme back hsplit := absurd hsplit (by simp)
  ending := by rwa [List.map_nil, List.append_nil]

theorem cons {first : Lexeme} {reading : Reading} (hfirst : first.IsExact text before)
    (h : reading.IsExact text (before ++ [first.token])) :
    Reading.IsExact text before ⟨first :: reading.lexemes, reading.ending⟩ where
  lexeme front lexeme back hsplit := by
    cases front with
    | nil =>
      obtain ⟨rfl, -⟩ : first = lexeme ∧ reading.lexemes = back := List.cons.inj hsplit
      rwa [List.map_nil, List.append_nil]
    | cons other front =>
      obtain ⟨rfl, hrest⟩ : first = other ∧ reading.lexemes = front ++ lexeme :: back :=
        List.cons.inj hsplit
      have hlexeme := h.lexeme front lexeme back hrest
      rwa [List.append_assoc] at hlexeme
  ending := by
    have hending := h.ending
    rwa [List.append_assoc] at hending

end Reading.IsExact

theorem readFrom_stuck {c : Char} {cs : List Char} (hgap : isGap c = false)
    (hscan : Token.scan (c :: cs) = none) (pos : Position) :
    readFrom 0 pos (c :: cs) =
      ⟨[], .stuck pos (String.ofList ((c :: cs).take excerptLength))⟩ := by
  rw [readFrom, hgap, hscan]
  rfl

theorem readFrom_read {c : Char} {cs word : List Char} {token : Token} (hgap : isGap c = false)
    (hword : c :: cs = word ++ rest) (hne : word ≠ [])
    (hscan : Token.scan (c :: cs) = some (token, word.length)) (pos : Position) :
    readFrom 0 pos (c :: cs) =
      ⟨⟨token, pos⟩ :: (readFrom 0 (word.foldl Position.advance pos) rest).lexemes,
        (readFrom 0 (word.foldl Position.advance pos) rest).ending⟩ := by
  obtain ⟨d, more, rfl⟩ := List.exists_cons_of_ne_nil hne
  obtain ⟨rfl, rfl⟩ : c = d ∧ cs = more ++ rest := List.cons.inj hword
  rw [List.foldl_cons, ← readFrom_append, readFrom, hgap, hscan]
  rfl

/-- The induction is on the length of the rest, of which a gap takes one character and a token at
least one. -/
theorem Comes.isExact_readFrom (h : Comes text passed tokens rest) :
    (readFrom 0 (.behind passed) rest).IsExact text tokens := by
  induction hlength : rest.length using Nat.strong_induction_on generalizing passed tokens rest with
  | _ length ih =>
    subst hlength
    cases rest with
    | nil =>
      rw [readFrom]
      exact .nil ⟨passed, h, rfl⟩
    | cons c cs =>
      by_cases hgap : isGap c = true
      · rw [readFrom, if_pos hgap, ← Position.behind_skip hgap]
        exact ih _ (Nat.lt_succ_self _) (h.skip hgap) rfl
      · rw [Bool.not_eq_true] at hgap
        cases hscan : Token.scan (c :: cs) with
        | none =>
          rw [readFrom_stuck hgap hscan]
          exact .nil ⟨passed, c :: cs, h, List.cons_ne_nil c cs, hgap, hscan, rfl, rfl⟩
        | some found =>
          obtain ⟨token, size⟩ := found
          obtain ⟨word, behind, hword, rfl, hne⟩ := Token.exists_word_of_scan hscan
          have hshorter : behind.length < (c :: cs).length := by
            rw [hword, List.length_append]
            exact Nat.lt_add_of_pos_left (List.length_pos_iff.2 hne)
          have hread : Comes text (passed ++ passing false word) (tokens ++ [token]) behind :=
            .read (hword ▸ h) (hword ▸ hgap) (hword ▸ hscan)
          rw [readFrom_read hgap hword hne hscan, ← Position.behind_foldl_advance]
          exact .cons ⟨passed, c :: cs, _, h, hgap, hscan, rfl⟩ (ih _ hshorter hread rfl)

end Comes

theorem Reading.isExact_ofText (text : String) : (Reading.ofText text).IsExact text.toList [] :=
  Comes.start.isExact_readFrom

end Gatework
