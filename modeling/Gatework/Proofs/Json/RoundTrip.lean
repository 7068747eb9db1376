import Gatework.Json.Reader
import Gatework.Json.Writer
import Gatework.Proofs.Token.Reads
import Mathlib.Tactic.IntervalCases

/-!
# Reading what has been written

Every value that `Value.write` has written is read back, if its numbers are unsigned
ones of 64 bits and if its brackets are not nested more deeply than the reader goes.

There are four groups.

* Texts: the form of a character inside quotes is read as the character.
* Numbers.  A number ends where no digit, point or power of ten follows
  (`EndsNumber`).
* `Value.Fits` says which values are meant, and `ReadsBack` that a value is read
  back wherever it stands.  The fuel of the reader need not exceed the number of
  characters that have been written.
* Arrays and objects, by induction on their items and members, and `parse_write`
  for a whole text.
-/

namespace Gatework.Json

/-! ## Texts -/

theorem hexValue?_digitChar : ∀ digit < 16, hexValue? (Nat.digitChar digit) = some digit := by
  decide

/-- The code of a control character is read as the character. -/
theorem escape_control {c : Char} (hc : c.toNat < 0x20) (rest : List Char) :
    escape ('u' :: '0' :: '0' :: Nat.digitChar (c.toNat / 16) :: Nat.digitChar (c.toNat % 16) ::
      rest) = .ok (c, rest) := by
  have hzero : hexValue? '0' = some 0 := rfl
  have hhigh := hexValue?_digitChar (c.toNat / 16) (by omega)
  have hlow := hexValue?_digitChar (c.toNat % 16) (by omega)
  have hunit : 16 * (c.toNat / 16) + c.toNat % 16 = c.toNat := by omega
  have hplain : isSurrogate c.toNat = false := by
    simp only [isSurrogate, Bool.and_eq_false_iff, decide_eq_false_iff_not]
    omega
  simp only [escape, codeEscape, hexDigits, hzero, hhigh, hlow, bind, Except.bind, Nat.mul_zero,
    Nat.zero_add, hunit, hplain]
  simp [pure, Except.pure]

/-- The form of a character is read as the character. -/
theorem textBody_escaped (c first : Char) (bound rest : List Char) :
    textBody (first :: bound) (escaped c ++ rest) = do
      let (more, rest) ← textBody bound rest
      return (c :: more, rest) := by
  unfold escaped
  split
  case h_8 hquote hbackslash _ _ _ _ _ =>
    split
    · next hcontrol =>
      simp only [List.cons_append, List.nil_append, textBody, escape_control hcontrol]
      rfl
    · next hplain =>
      rw [List.singleton_append, textBody, if_neg hplain]
      · exact fun h => hquote h
      · exact fun h => hbackslash h
  all_goals rfl

theorem length_escaped_pos (c : Char) : 0 < (escaped c).length := by
  unfold escaped
  split
  case h_8 => split <;> simp
  all_goals simp

theorem textBody_flatMap (text : List Char) {bound rest : List Char}
    (hbound : (text.flatMap escaped).length < bound.length) :
    textBody bound (text.flatMap escaped ++ '"' :: rest) = .ok (text, rest) := by
  induction text generalizing bound with
  | nil =>
    cases bound with
    | nil => exact absurd hbound (Nat.not_lt_zero _)
    | cons => rfl
  | cons c text ih =>
    cases bound with
    | nil => exact absurd hbound (Nat.not_lt_zero _)
    | cons first bound =>
      have hc := length_escaped_pos c
      rw [List.flatMap_cons, List.length_append, List.length_cons] at hbound
      rw [List.flatMap_cons, List.append_assoc, textBody_escaped, ih (by omega)]
      rfl

/-- A text between quotes is read behind its first quote. -/
theorem textRest_writeText (text : String) (rest : List Char) :
    textRest (text.toList.flatMap escaped ++ '"' :: rest) = .ok (text, rest) := by
  rw [textRest, textBody_flatMap _ (by simp)]
  simp [bind, Except.bind, pure, Except.pure]

/-! ## Numbers -/

/-- What stands behind a number does not go on with it. -/
def EndsNumber (rest : List Char) : Prop :=
  ∀ c ∈ rest.head?, c.isDigit = false ∧ c ≠ '.' ∧ c ≠ 'e' ∧ c ≠ 'E'

theorem le_ofDigitChars (digits : List Char) (value : Nat) :
    value ≤ Nat.ofDigitChars 10 digits value := by
  induction digits generalizing value with
  | nil => exact Nat.le_refl _
  | cons c digits ih =>
    have hnext := ih (10 * value + (c.toNat - '0'.toNat))
    have hstep : Nat.ofDigitChars 10 (c :: digits) value =
        Nat.ofDigitChars 10 digits (10 * value + (c.toNat - '0'.toNat)) := rfl
    omega

/-- No digit of a number of 64 bits is dropped. -/
theorem foldl_pushDigit (negative : Bool) {digits : List Char} {value : Nat}
    (h : Nat.ofDigitChars 10 digits value < UInt64.size) :
    digits.foldl pushDigit ⟨negative, value, 0⟩ =
      ⟨negative, Nat.ofDigitChars 10 digits value, 0⟩ := by
  induction digits generalizing value with
  | nil => rfl
  | cons c digits ih =>
    have hle : 10 * value + digitValue c < UInt64.size :=
      Nat.lt_of_le_of_lt (le_ofDigitChars digits _) h
    rw [List.foldl_cons, pushDigit, if_pos hle]
    exact ih h

/-- Only zero starts with the digit zero. -/
theorem head?_toDigits {n : Nat} (h : 0 < n) : (Nat.toDigits 10 n).head? ≠ some '0' := by
  induction n using Nat.strongRecOn with
  | ind n ih =>
    by_cases hsmall : n < 10
    · rw [Nat.toDigits_of_lt_base hsmall]
      interval_cases n <;> decide
    · rw [Nat.toDigits_of_base_le (by decide) (Nat.le_of_not_lt hsmall),
        List.head?_append_of_ne_nil _ Nat.toDigits_ne_nil]
      exact ih (n / 10) (by omega) (by omega)

theorem fractionPart_of_endsNumber (n : Numeral) {rest : List Char} (h : EndsNumber rest) :
    fractionPart n rest = .ok (n, rest) := by
  cases rest with
  | nil => rfl
  | cons c rest =>
    obtain ⟨-, hpoint, hlower, hupper⟩ := h c rfl
    have hexponent : exponentPart n (c :: rest) = .ok (n, c :: rest) :=
      if_neg (not_or.2 ⟨hlower, hupper⟩)
    rw [fractionPart, hexponent]
    exact fun _ heq => hpoint (List.cons.inj heq).1

theorem someDigits_toDigits (n : Nat) {rest : List Char} (h : EndsNumber rest) :
    someDigits (Nat.toDigits 10 n ++ rest) = .ok (Nat.toDigits 10 n, rest) := by
  have hall : ∀ c ∈ Nat.toDigits 10 n, c.isDigit = true := fun c hc =>
    Nat.isDigit_of_mem_toDigits (by decide) (by decide) hc
  cases hdigits : Nat.toDigits 10 n with
  | nil => exact absurd hdigits Nat.toDigits_ne_nil
  | cons c digits =>
    rw [hdigits] at hall
    have hmore : digits.all Char.isDigit = true :=
      List.all_eq_true.2 fun d hd => hall d (List.mem_cons_of_mem _ hd)
    have hend : rest.head?.any Char.isDigit = false := by
      cases hhead : rest.head? with
      | none => rfl
      | some d => exact (h d hhead).1
    obtain ⟨htake, hdrop⟩ := Token.takeWhile_append_of_head? hmore hend
    rw [List.cons_append, someDigits, if_pos (hall c List.mem_cons_self), htake, hdrop]

/-- The digits of a number of 64 bits are read as the number. -/
theorem numeral_toDigits {n : Nat} (hn : n < UInt64.size) {rest : List Char}
    (h : EndsNumber rest) :
    numeral false (Nat.toDigits 10 n ++ rest) = .ok (⟨false, n, 0⟩, rest) := by
  by_cases hzero : n = 0
  · rw [hzero, Nat.toDigits_zero]
    exact fractionPart_of_endsNumber _ h
  · have hhead := head?_toDigits (Nat.pos_of_ne_zero hzero)
    have hne : ∀ cs, Nat.toDigits 10 n ++ rest ≠ '0' :: cs := by
      intro cs heq
      have hsame := congrArg List.head? heq
      rw [List.head?_append_of_ne_nil _ Nat.toDigits_ne_nil] at hsame
      exact hhead hsame
    have hvalue : Nat.ofDigitChars 10 (Nat.toDigits 10 n) 0 = n := Nat.ofDigitChars_ten_toDigits
    rw [numeral, someDigits_toDigits n h]
    · simp only [bind, Except.bind]
      rw [foldl_pushDigit false (by rwa [hvalue]), hvalue]
      exact fractionPart_of_endsNumber _ h
    · exact hne

/-! ## Values -/

/-- A value whose numbers are unsigned ones of 64 bits, and whose arrays and objects
are nested at most so many levels deep. -/
inductive Value.Fits : Nat → Value → Prop
  | null {levels : Nat} : Fits levels .null
  | bool {levels : Nat} {value : Bool} : Fits levels (.bool value)
  | number {levels n : Nat} (h : n < UInt64.size) : Fits levels (.number ⟨false, n, 0⟩)
  | string {levels : Nat} {text : String} : Fits levels (.string text)
  | array {levels : Nat} {items : List Value} (h : ∀ item ∈ items, Fits levels item) :
      Fits (levels + 1) (.array items)
  | object {levels : Nat} {members : List (String × Value)}
      (h : ∀ member ∈ members, Fits levels member.2) : Fits (levels + 1) (.object members)

/-- A value that is read back wherever it stands, if what stands behind it does not go
on with a number. -/
def ReadsBack (levels : Nat) (v : Value) : Prop :=
  ∀ ⦃fuel depth indent : Nat⦄ ⦃rest : List Char⦄, depth + levels ≤ depthLimit →
    (write indent v).length ≤ fuel → EndsNumber rest →
      value (fuel + 1) depth (write indent v ++ rest) = .ok (v, rest)

theorem skipBlanks_of_isBlank_eq_false {c : Char} (hc : isBlank c = false) (cs : List Char) :
    skipBlanks (c :: cs) = c :: cs :=
  List.dropWhile_cons_of_neg (by simp [hc])

theorem skipBlanks_append {blanks : List Char} (h : blanks.all isBlank = true)
    (cs : List Char) : skipBlanks (blanks ++ cs) = skipBlanks cs :=
  List.dropWhile_append_of_pos (List.all_eq_true.1 h)

theorem isBlank_newLine (indent : Nat) : (newLine indent).all isBlank = true := by
  rw [newLine, List.all_cons, List.all_replicate]
  simp [show isBlank '\n' = true from rfl, show isBlank ' ' = true from rfl]

/-- Blanks in front of a value are left out. -/
theorem value_append {blanks : List Char} (h : blanks.all isBlank = true) (fuel depth : Nat)
    (cs : List Char) : value fuel depth (blanks ++ cs) = value fuel depth cs := by
  cases fuel with
  | zero => rw [value, value]
  | succ fuel => rw [value, value, skipBlanks_append h]

theorem isBlank_of_isDigit {c : Char} (hc : c.isDigit = true) : isBlank c = false := by
  have hle : 48 ≤ c.toNat := (Char.isDigit_iff_toNat.1 hc).1
  have hne : c ≠ ' ' := by
    rintro rfl
    exact absurd hc (by decide)
  have hlow : ¬ c.toNat ≤ 13 := by omega
  simp [isBlank, hne, hlow]

/-- No digit opens anything but a number. -/
theorem value_of_isDigit {c : Char} (hc : c.isDigit = true) (fuel depth : Nat)
    (cs : List Char) : value (fuel + 1) depth (c :: cs) = do
      let (n, rest) ← numeral false (c :: cs)
      return (.number n, rest) := by
  have hne : ∀ other : Char, other.isDigit = false → c ≠ other := by
    rintro other hother rfl
    exact absurd hc (by simp [hother])
  have hnumber : number (c :: cs) = do
      let (n, rest) ← numeral false (c :: cs)
      return (.number n, rest) := by
    rw [number]
    exact fun _ heq => hne '-' rfl (List.cons.inj heq).1
  rw [value, skipBlanks_of_isBlank_eq_false (isBlank_of_isDigit hc)]
  split
  case h_7 heq =>
    cases heq
    rw [if_pos (Or.inr hc), hnumber]
  case h_8 heq => cases heq
  all_goals next heq => exact absurd (List.cons.inj heq).1 (hne _ rfl)

theorem readsBack_number {n : Nat} (h : n < UInt64.size) (levels : Nat) :
    ReadsBack levels (.number ⟨false, n, 0⟩) := by
  intro fuel depth indent rest _ _ hrest
  have hwritten : write indent (.number ⟨false, n, 0⟩) = Nat.toDigits 10 n := by
    simp [write, writeNumeral]
  have hnumeral := numeral_toDigits h hrest
  rw [hwritten]
  cases hdigits : Nat.toDigits 10 n with
  | nil => exact absurd hdigits Nat.toDigits_ne_nil
  | cons c digits =>
    have hc : c.isDigit = true :=
      Nat.isDigit_of_mem_toDigits (b := 10) (n := n) (by decide) (by decide)
        (hdigits ▸ List.mem_cons_self)
    rw [hdigits, List.cons_append] at hnumeral
    rw [List.cons_append, value_of_isDigit hc, hnumeral]
    rfl

theorem readsBack_string (text : String) (levels : Nat) : ReadsBack levels (.string text) := by
  intro fuel depth indent rest _ _ _
  have hvalue : value (fuel + 1) depth ('"' :: (text.toList.flatMap escaped ++ '"' :: rest)) =
      .ok (.string text, rest) := by
    change (textRest (text.toList.flatMap escaped ++ '"' :: rest) >>= _) = _
    rw [textRest_writeText]
    rfl
  have hwritten : write indent (.string text) ++ rest =
      '"' :: (text.toList.flatMap escaped ++ '"' :: rest) := by
    simp [write, writeText]
  rw [hwritten, hvalue]

/-! ## Arrays and objects -/

theorem endsNumber_newLine (indent : Nat) (cs : List Char) :
    EndsNumber (newLine indent ++ cs) := by
  rintro c ⟨⟩
  decide

theorem endsNumber_comma (cs : List Char) : EndsNumber (',' :: cs) := by
  rintro c ⟨⟩
  decide

/-- A value does not start with a blank or with a closing bracket. -/
theorem exists_write_eq_cons {levels : Nat} {v : Value} (h : v.Fits levels) (indent : Nat) :
    ∃ c cs, write indent v = c :: cs ∧ isBlank c = false ∧ c ≠ ']' := by
  cases h with
  | @number _ n =>
    have hwritten : write indent (.number ⟨false, n, 0⟩) = Nat.toDigits 10 n := by
      simp [write, writeNumeral]
    rw [hwritten]
    cases hdigits : Nat.toDigits 10 n with
    | nil => exact absurd hdigits Nat.toDigits_ne_nil
    | cons c digits =>
      have hc : c.isDigit = true :=
        Nat.isDigit_of_mem_toDigits (b := 10) (n := n) (by decide) (by decide)
          (hdigits ▸ List.mem_cons_self)
      refine ⟨c, digits, rfl, isBlank_of_isDigit hc, ?_⟩
      rintro rfl
      exact absurd hc (by decide)
  | @array _ items => cases items <;> exact ⟨_, _, rfl, rfl, by decide⟩
  | @object _ members => cases members <;> exact ⟨_, _, rfl, rfl, by decide⟩
  | null => exact ⟨_, _, rfl, rfl, by decide⟩
  | @bool _ flag => cases flag <;> exact ⟨_, _, rfl, rfl, by decide⟩
  | string => exact ⟨_, _, rfl, rfl, by decide⟩

variable {fuel depth levels : Nat} {cs cs' rest : List Char}

theorem items_eq_singleton {item : Value} (hitem : value fuel depth cs = .ok (item, cs'))
    (hend : skipBlanks cs' = ']' :: rest) : items (fuel + 1) depth cs = .ok ([item], rest) := by
  simp only [items, hitem, hend, bind, Except.bind]
  rfl

theorem items_eq_cons {item : Value} {more : List Value}
    (hitem : value fuel depth cs = .ok (item, ',' :: cs'))
    (hmore : items fuel depth cs' = .ok (more, rest)) :
    items (fuel + 1) depth cs = .ok (item :: more, rest) := by
  have hcomma : skipBlanks (',' :: cs') = ',' :: cs' := rfl
  simp only [items, hitem, hcomma, hmore, bind, Except.bind]
  rfl

theorem members_eq_singleton {name : String} {v : Value} {text behind : List Char}
    (hquote : skipBlanks cs = '"' :: text) (hname : textRest text = .ok (name, ':' :: behind))
    (hvalue : value fuel depth behind = .ok (v, cs')) (hend : skipBlanks cs' = '\x7d' :: rest) :
    members (fuel + 1) depth cs = .ok ([(name, v)], rest) := by
  have hcolon : skipBlanks (':' :: behind) = ':' :: behind := rfl
  simp only [members, hquote, after, hname, hcolon, hvalue, hend, bind, Except.bind, if_true]
  rfl

theorem members_eq_cons {name : String} {v : Value} {more : List (String × Value)}
    {text behind : List Char} (hquote : skipBlanks cs = '"' :: text)
    (hname : textRest text = .ok (name, ':' :: behind))
    (hvalue : value fuel depth behind = .ok (v, ',' :: cs'))
    (hmore : members fuel depth cs' = .ok (more, rest)) :
    members (fuel + 1) depth cs = .ok ((name, v) :: more, rest) := by
  have hcolon : skipBlanks (':' :: behind) = ':' :: behind := rfl
  have hcomma : skipBlanks (',' :: cs') = ',' :: cs' := rfl
  simp only [members, hquote, after, hname, hcolon, hvalue, hcomma, hmore, bind, Except.bind,
    if_true]
  rfl

/-- Blanks in front of a value that is read back do no harm. -/
theorem ReadsBack.after_blanks {v : Value} (h : ReadsBack levels v) {blanks : List Char}
    {indent : Nat} (hblanks : blanks.all isBlank = true) (hdepth : depth + levels ≤ depthLimit)
    (hfuel : (write indent v).length < fuel) (hrest : EndsNumber rest) :
    value fuel depth (blanks ++ (write indent v ++ rest)) = .ok (v, rest) := by
  obtain ⟨fuel, rfl⟩ := Nat.exists_eq_add_one_of_ne_zero (Nat.ne_zero_of_lt hfuel)
  rw [value_append hblanks]
  exact h hdepth (by omega) hrest

/-- The items of an array are read back if each of them is. -/
theorem items_write {first : Value} {more : List Value}
    (h : ∀ item ∈ first :: more, ReadsBack levels item) {blanks : List Char} {inner outer : Nat}
    (hblanks : blanks.all isBlank = true) (hdepth : depth + levels ≤ depthLimit)
    (hfuel : (write inner first).length + (writeItems inner more).length < fuel) :
    items (fuel + 1) depth (blanks ++ (write inner first ++
        (writeItems inner more ++ (newLine outer ++ ']' :: rest)))) =
      .ok (first :: more, rest) := by
  induction more generalizing first blanks fuel with
  | nil =>
    have hend : skipBlanks (newLine outer ++ ']' :: rest) = ']' :: rest :=
      skipBlanks_append (isBlank_newLine outer) _
    refine items_eq_singleton ?_ hend
    exact (h first List.mem_cons_self).after_blanks hblanks hdepth
      (Nat.lt_of_le_of_lt (Nat.le_add_right _ _) hfuel) (endsNumber_newLine outer _)
  | cons second more ih =>
    have hwritten : ∀ tail, writeItems inner (second :: more) ++ tail =
        ',' :: (newLine inner ++ (write inner second ++ (writeItems inner more ++ tail))) := by
      simp [writeItems]
    have hlength := congrArg List.length (hwritten [])
    simp only [List.append_nil, List.length_cons, List.length_append] at hlength
    obtain ⟨fuel, rfl⟩ := Nat.exists_eq_add_one_of_ne_zero (Nat.ne_zero_of_lt hfuel)
    rw [hwritten]
    refine items_eq_cons ?_ (ih ?_ (isBlank_newLine inner) (by omega))
    · exact (h first List.mem_cons_self).after_blanks hblanks hdepth (by omega)
        (endsNumber_comma _)
    · exact fun item hitem => h item (List.mem_cons_of_mem _ hitem)

/-- The members of an object are read back if the value of each of them is. -/
theorem members_write {name : String} {first : Value} {more : List (String × Value)}
    (h : ∀ member ∈ (name, first) :: more, ReadsBack levels member.2) {blanks : List Char}
    {inner outer : Nat} (hblanks : blanks.all isBlank = true)
    (hdepth : depth + levels ≤ depthLimit)
    (hfuel : (write inner first).length + (writeMembers inner more).length < fuel) :
    members (fuel + 1) depth (blanks ++ (writeText name ++ ':' :: ([' '] ++
        (write inner first ++ (writeMembers inner more ++ (newLine outer ++ '\x7d' :: rest)))))) =
      .ok ((name, first) :: more, rest) := by
  have hquote : ∀ {blanks : List Char} (name : String) (tail : List Char),
      blanks.all isBlank = true → skipBlanks (blanks ++ (writeText name ++ tail)) =
        '"' :: (name.toList.flatMap escaped ++ '"' :: tail) := by
    intro blanks name tail hblanks
    rw [skipBlanks_append hblanks]
    simp [writeText, skipBlanks_of_isBlank_eq_false (show isBlank '"' = false from rfl)]
  have hspace : [' '].all isBlank = true := rfl
  induction more generalizing name first blanks fuel with
  | nil =>
    have hend : skipBlanks (newLine outer ++ '\x7d' :: rest) = '\x7d' :: rest :=
      skipBlanks_append (isBlank_newLine outer) _
    refine members_eq_singleton (hquote name _ hblanks) (textRest_writeText name _) ?_ hend
    exact (h _ List.mem_cons_self).after_blanks hspace hdepth
      (Nat.lt_of_le_of_lt (Nat.le_add_right _ _) hfuel) (endsNumber_newLine outer _)
  | cons second more ih =>
    obtain ⟨other, second⟩ := second
    have hwritten : ∀ tail, writeMembers inner ((other, second) :: more) ++ tail =
        ',' :: (newLine inner ++ (writeText other ++ ':' :: ([' '] ++
          (write inner second ++ (writeMembers inner more ++ tail))))) := by
      simp [writeMembers]
    have hlength := congrArg List.length (hwritten [])
    simp only [List.append_nil, List.length_cons, List.length_append] at hlength
    obtain ⟨fuel, rfl⟩ := Nat.exists_eq_add_one_of_ne_zero (Nat.ne_zero_of_lt hfuel)
    rw [hwritten]
    refine members_eq_cons (hquote name _ hblanks) (textRest_writeText name _) ?_
      (ih ?_ (isBlank_newLine inner) (by omega))
    · exact (h _ List.mem_cons_self).after_blanks hspace hdepth (by simp only; omega)
        (endsNumber_comma _)
    · exact fun member hmember => h member (List.mem_cons_of_mem _ hmember)

theorem value_eq_array {c : Char} {list : List Value} (hopen : skipBlanks cs' = c :: cs)
    (hc : c ≠ ']') (hdepth : depth ≠ depthLimit)
    (hitems : items fuel (depth + 1) (c :: cs) = .ok (list, rest)) :
    value (fuel + 1) depth ('[' :: cs') = .ok (.array list, rest) := by
  rw [value, skipBlanks_of_isBlank_eq_false (show isBlank '[' = false from rfl)]
  simp only [hopen]
  split
  · next heq => cases heq
  · next heq => exact absurd (List.cons.inj heq).1 hc
  · rw [if_neg hdepth, hitems]
    rfl

theorem value_eq_object {list : List (String × Value)} (hopen : skipBlanks cs' = '"' :: cs)
    (hdepth : depth ≠ depthLimit)
    (hmembers : members fuel (depth + 1) ('"' :: cs) = .ok (list, rest)) :
    value (fuel + 1) depth ('\x7b' :: cs') = .ok (.object list, rest) := by
  rw [value, skipBlanks_of_isBlank_eq_false (show isBlank '\x7b' = false from rfl)]
  simp only [hopen]
  split
  · next heq => cases heq
  · next heq => exact absurd (List.cons.inj heq).1 (by decide)
  · rw [if_neg hdepth, hmembers]
    rfl

theorem readsBack_array {list : List Value} (hfits : ∀ item ∈ list, item.Fits levels)
    (h : ∀ item ∈ list, ReadsBack levels item) : ReadsBack (levels + 1) (.array list) := by
  intro fuel depth indent rest hdepth hfuel _
  cases list with
  | nil => rfl
  | cons first more =>
    have hwritten : ∀ tail, write indent (.array (first :: more)) ++ tail =
        '[' :: (newLine (indent + 1) ++ (write (indent + 1) first ++
          (writeItems (indent + 1) more ++ (newLine indent ++ ']' :: tail)))) := by
      simp [write]
    have hlength := congrArg List.length (hwritten [])
    simp only [List.append_nil, List.length_cons, List.length_append] at hlength
    obtain ⟨fuel, rfl⟩ := Nat.exists_eq_add_one_of_ne_zero (show fuel ≠ 0 by omega)
    have hitems : items (fuel + 1) (depth + 1) ([] ++ (write (indent + 1) first ++
        (writeItems (indent + 1) more ++ (newLine indent ++ ']' :: rest)))) =
          .ok (first :: more, rest) :=
      items_write h rfl (by omega) (by omega)
    obtain ⟨c, cs, hfirst, hblank, hc⟩ :=
      exists_write_eq_cons (hfits first List.mem_cons_self) (indent + 1)
    rw [List.nil_append, hfirst, List.cons_append] at hitems
    rw [hwritten, hfirst]
    refine value_eq_array ?_ hc (by omega) hitems
    rw [skipBlanks_append (isBlank_newLine _), List.cons_append,
      skipBlanks_of_isBlank_eq_false hblank]

theorem readsBack_object {list : List (String × Value)}
    (h : ∀ member ∈ list, ReadsBack levels member.2) : ReadsBack (levels + 1) (.object list) := by
  intro fuel depth indent rest hdepth hfuel _
  cases list with
  | nil => rfl
  | cons first more =>
    obtain ⟨name, first⟩ := first
    have hwritten : ∀ tail, write indent (.object ((name, first) :: more)) ++ tail =
        '\x7b' :: (newLine (indent + 1) ++ (writeText name ++ ':' :: ([' '] ++
          (write (indent + 1) first ++ (writeMembers (indent + 1) more ++
            (newLine indent ++ '\x7d' :: tail)))))) := by
      simp [write]
    have hlength := congrArg List.length (hwritten [])
    simp only [List.append_nil, List.length_cons, List.length_append] at hlength
    obtain ⟨fuel, rfl⟩ := Nat.exists_eq_add_one_of_ne_zero (show fuel ≠ 0 by omega)
    have hmembers : members (fuel + 1) (depth + 1) ([] ++ (writeText name ++ ':' :: ([' '] ++
        (write (indent + 1) first ++ (writeMembers (indent + 1) more ++
          (newLine indent ++ '\x7d' :: rest)))))) = .ok ((name, first) :: more, rest) :=
      members_write h rfl (by omega) (by omega)
    rw [hwritten]
    refine value_eq_object ?_ (by omega) hmembers
    exact skipBlanks_append (isBlank_newLine _) _

/-- Every value that fits is read back. -/
theorem Value.Fits.readsBack {v : Value} (h : v.Fits levels) : ReadsBack levels v := by
  induction h with
  | number h => exact readsBack_number h _
  | string => exact readsBack_string _ _
  | array hfits ih => exact readsBack_array hfits ih
  | object _ ih => exact readsBack_object ih
  | null => exact fun _ _ _ _ _ _ _ => rfl
  | @bool _ flag => cases flag <;> exact fun _ _ _ _ _ _ _ => rfl

/-- What has been written is read back, also if blanks follow it. -/
theorem parse_write {v : Value} (h : v.Fits depthLimit) {blanks : String}
    (hblanks : blanks.toList.all isBlank = true) : parse (v.write ++ blanks) = .ok v := by
  have hends : EndsNumber blanks.toList := by
    intro c hc
    have hblank : isBlank c = true := List.all_eq_true.1 hblanks c (List.mem_of_mem_head? hc)
    have hne : ∀ other : Char, isBlank other = false → c ≠ other := by
      rintro other hother rfl
      exact absurd hblank (by simp [hother])
    refine ⟨?_, hne '.' rfl, hne 'e' rfl, hne 'E' rfl⟩
    rw [Bool.eq_false_iff]
    exact fun hdigit => absurd hblank (by simp [isBlank_of_isDigit hdigit])
  have hrest : skipBlanks blanks.toList = [] :=
    List.dropWhile_eq_nil_iff.2 (List.all_eq_true.1 hblanks)
  have hvalue : value (2 * (Json.write 0 v ++ blanks.toList).length + 1) 0
      (Json.write 0 v ++ blanks.toList) = .ok (v, blanks.toList) :=
    h.readsBack (by omega) (by rw [List.length_append]; omega) hends
  have hwhole : whole (Json.write 0 v ++ blanks.toList) = .ok v := by
    simp only [whole, hvalue, bind, Except.bind, hrest]
    rfl
  rw [parse, Value.write, String.toList_append, String.toList_ofList, hwhole]
  rfl

end Gatework.Json
