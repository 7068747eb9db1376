import Gatework.Token.Scan
import Mathlib.Data.List.Forall2
import Mathlib.Data.List.TakeWhile

/-!
# What a reader takes from a text

A reader that is made of others takes what they take, one after the other, so what a
token's reader does with a text is put together from the pieces of the text.

There are five groups.

* `Reads`: a reader takes a text and leaves the characters behind it.  `Refuses`: a
  reader finds nothing.  Both pass to readers that are made of others.
* The pieces: words, runs of characters, keywords and names.
* `Within`: whatever a reader takes consists of characters of one kind.
* `Yields`: whatever a reader gives has a property.
* `scan_of_reads`: the first reader that takes something gives the token.  By their
  first characters (`initials`) most of the readers before it find nothing.
-/

namespace Gatework.Token

open Gatework.Text

variable {α β : Type}

/-! ## Taking and refusing -/

/-- A reader takes `text` and leaves `rest`, which stands behind it, and gives `a`. -/
def Reads (reader : Scanner α) (text : List Char) (a : α) (rest : List Char) : Prop :=
  ∀ taken, reader.run ⟨taken, text ++ rest⟩ = some (a, ⟨taken + text.length, rest⟩)

/-- A reader finds nothing at the front of a text. -/
def Refuses (reader : Scanner α) (cs : List Char) : Prop :=
  ∀ taken, reader.run ⟨taken, cs⟩ = none

theorem reads_pure (a : α) (rest : List Char) : Reads (pure a) [] a rest := fun _ => rfl

theorem reads_ahead (rest : List Char) : Reads ahead [] rest rest := fun _ => rfl

theorem refuses_nothing (cs : List Char) : Refuses (nothing : Scanner α) cs := fun _ => rfl

/-- A reader goes on behind the text that its first part takes. -/
theorem run_bind_of_reads {first : Scanner α} {front rest : List Char} {a : α}
    (hfirst : Reads first front a rest) (next : α → Scanner β) (taken : Nat) :
    (first >>= next).run ⟨taken, front ++ rest⟩ =
      (next a).run ⟨taken + front.length, rest⟩ := by
  rw [StateT.run_bind, hfirst taken]
  rfl

theorem run_bind_of_reads_nil {first : Scanner α} {rest : List Char} {a : α}
    (hfirst : Reads first [] a rest) (next : α → Scanner β) (taken : Nat) :
    (first >>= next).run ⟨taken, rest⟩ = (next a).run ⟨taken, rest⟩ :=
  run_bind_of_reads hfirst next taken

/-- One reader after the other takes one text after the other. -/
theorem reads_bind {first : Scanner α} {next : α → Scanner β} {front back rest : List Char} {a : α}
    {b : β} (hfirst : Reads first front a (back ++ rest)) (hnext : Reads (next a) back b rest) :
    Reads (first >>= next) (front ++ back) b rest := by
  intro taken
  rw [List.append_assoc, run_bind_of_reads hfirst, hnext, List.length_append, Nat.add_assoc]

/-- A reader that takes nothing has no part in what is taken. -/
theorem reads_bind_nil {first : Scanner α} {next : α → Scanner β} {text rest : List Char} {a : α}
    {b : β} (hfirst : Reads first [] a (text ++ rest)) (hnext : Reads (next a) text b rest) :
    Reads (first >>= next) text b rest :=
  reads_bind hfirst hnext

theorem reads_bind_end {first : Scanner α} {next : α → Scanner β} {text rest : List Char} {a : α}
    {b : β} (hfirst : Reads first text a rest) (hnext : Reads (next a) [] b rest) :
    Reads (first >>= next) text b rest := by
  rw [← List.append_nil text]
  exact reads_bind hfirst hnext

theorem reads_bind_pure {first : Scanner α} {text rest : List Char} {a : α} (f : α → β)
    (hfirst : Reads first text a rest) :
    Reads (first >>= fun a => pure (f a)) text (f a) rest :=
  reads_bind_end hfirst (reads_pure _ _)

theorem refuses_bind {first : Scanner α} {next : α → Scanner β} {cs : List Char}
    (hfirst : Refuses first cs) : Refuses (first >>= next) cs := by
  intro taken
  rw [StateT.run_bind, hfirst taken]
  rfl

/-- A reader finds nothing if its first part takes a text behind which the second
finds nothing. -/
theorem refuses_bind_of_reads {first : Scanner α} {next : α → Scanner β} {front rest : List Char}
    {a : α} (hfirst : Reads first front a rest) (hnext : Refuses (next a) rest) :
    Refuses (first >>= next) (front ++ rest) := by
  intro taken
  rw [run_bind_of_reads hfirst]
  exact hnext _

theorem refuses_bind_of_reads_nil {first : Scanner α} {next : α → Scanner β} {cs : List Char}
    {a : α} (hfirst : Reads first [] a cs) (hnext : Refuses (next a) cs) :
    Refuses (first >>= next) cs :=
  refuses_bind_of_reads hfirst hnext

/-- A reader finds nothing if its last part never finds anything. -/
theorem refuses_bind_of_forall {first : Scanner α} {next : α → Scanner β} {cs : List Char}
    (hnext : ∀ a rest, Refuses (next a) rest) : Refuses (first >>= next) cs := by
  intro taken
  rw [StateT.run_bind]
  cases first.run ⟨taken, cs⟩ with
  | none => rfl
  | some result => exact hnext result.1 result.2.rest result.2.taken

/-! ## Pieces -/

theorem reads_word (text rest : List Char) : Reads (word text) text () rest := by
  intro taken
  change (afterWord text (text ++ rest)).map _ = _
  rw [afterWord_eq_some_iff.2 rfl]
  rfl

theorem refuses_word {text cs : List Char} (h : ¬ text <+: cs) : Refuses (word text) cs := by
  intro taken
  change (afterWord text cs).map _ = none
  rw [Option.map_eq_none_iff, Option.eq_none_iff_forall_ne_some]
  exact fun rest hrest => h ⟨rest, (afterWord_eq_some_iff.1 hrest).symm⟩

theorem takeWhile_append_of_head? {p : Char → Bool} {front rest : List Char}
    (hfront : front.all p = true) (hrest : rest.head?.any p = false) :
    (front ++ rest).takeWhile p = front ∧ (front ++ rest).dropWhile p = rest := by
  rw [List.all_eq_true] at hfront
  rw [List.takeWhile_append_of_pos hfront, List.dropWhile_append_of_pos hfront]
  cases rest with
  | nil => simp
  | cons c rest =>
    have hc : ¬ p c = true := by simpa using hrest
    simp [hc]

theorem any_head?_dropWhile (p : Char → Bool) (cs : List Char) :
    (cs.dropWhile p).head?.any p = false := by
  have hfirst := List.head?_dropWhile_not p cs
  cases hrest : cs.dropWhile p with
  | nil => rfl
  | cons c rest =>
    rw [hrest] at hfirst
    exact hfirst

/-- A run goes on as long as the characters are of its kind. -/
theorem reads_run {p : Char → Bool} {text rest : List Char} (htext : text.all p = true)
    (hrest : rest.head?.any p = false) : Reads (run p) text text rest := by
  intro taken
  obtain ⟨htake, hdrop⟩ := takeWhile_append_of_head? htext hrest
  change some ((text ++ rest).takeWhile p, (⟨_, (text ++ rest).dropWhile p⟩ : Cursor)) = _
  rw [htake, hdrop]

theorem reads_char {p : Char → Bool} {c : Char} (hc : p c = true) (rest : List Char) :
    Reads (char p) [c] c rest := by
  intro taken
  change (if p c then some (c, (⟨taken + 1, rest⟩ : Cursor)) else none) = _
  rw [if_pos hc]
  rfl

theorem refuses_char {p : Char → Bool} {cs : List Char} (h : cs.head?.any p = false) :
    Refuses (char p) cs := by
  intro taken
  cases cs with
  | nil => rfl
  | cons c cs =>
    change (if p c then some (c, (⟨taken + 1, cs⟩ : Cursor)) else none) = none
    have hc : ¬ p c = true := by simpa using h
    rw [if_neg hc]

theorem reads_keyword {text rest : List Char} (hrest : rest.head?.any isNameChar = false) :
    Reads (keyword text) text () rest := by
  refine reads_bind_end (reads_word _ _) (reads_bind_nil (reads_ahead _) ?_)
  rw [List.nil_append, hrest]
  exact reads_pure _ _

theorem refuses_keyword {text cs : List Char} (h : ¬ text <+: cs) : Refuses (keyword text) cs :=
  refuses_bind (refuses_word h)

/-- A word in front of a run of identifier characters is that run, or the run goes on
behind it. -/
theorem exists_of_prefix {text name rest : List Char} (htext : text.all isNameChar = true)
    (hname : name.all isNameChar = true) (hrest : rest.head?.any isNameChar = false)
    (hne : name ≠ text) (hstarts : text <+: name ++ rest) :
    ∃ c cs, name = text ++ c :: cs ∧ isNameChar c = true ∧ cs.all isNameChar = true := by
  rcases List.prefix_or_prefix_of_prefix hstarts (List.prefix_append name rest) with h | h
  · obtain ⟨more, rfl⟩ := h
    cases more with
    | nil => exact absurd (List.append_nil text) hne
    | cons c cs =>
      rw [List.all_append, List.all_cons, Bool.and_eq_true, Bool.and_eq_true] at hname
      exact ⟨c, cs, rfl, hname.2⟩
  · obtain ⟨more, rfl⟩ := h
    cases more with
    | nil => exact absurd (List.append_nil name).symm hne
    | cons c cs =>
      obtain ⟨after, hafter⟩ := hstarts
      rw [List.append_assoc, List.append_cancel_left_eq] at hafter
      rw [← hafter] at hrest
      rw [List.all_append, List.all_cons, Bool.and_eq_true, Bool.and_eq_true] at htext
      exact absurd (htext.2.1.symm.trans hrest) nofun

/-- A keyword is not found in front of a longer run of identifier characters. -/
theorem refuses_keyword_of_ne {text name rest : List Char} (htext : text.all isNameChar = true)
    (hname : name.all isNameChar = true) (hrest : rest.head?.any isNameChar = false)
    (hne : name ≠ text) : Refuses (keyword text) (name ++ rest) := by
  by_cases hstarts : text <+: name ++ rest
  · obtain ⟨c, cs, rfl, hc, -⟩ := exists_of_prefix htext hname hrest hne hstarts
    rw [List.append_assoc]
    refine refuses_bind_of_reads (reads_word _ _) (refuses_bind_of_reads_nil (reads_ahead _) ?_)
    rw [List.cons_append, List.head?_cons, Option.any_some, hc]
    exact refuses_nothing _
  · exact refuses_keyword hstarts

/-! ## Names -/

/-- Whether a text is a name: a letter or an underscore, and after it letters,
digits and underscores. -/
def isName (name : String) : Bool :=
  name.toList.head?.any isNameStart && name.toList.all isNameChar

theorem isNameChar_of_isNameStart {c : Char} (h : isNameStart c = true) : isNameChar c = true := by
  rw [isNameStart, Bool.or_eq_true] at h
  rw [isNameChar, Char.isAlphanum, Bool.or_eq_true, Bool.or_eq_true]
  exact h.imp_left Or.inl

/-- The characters of a name. -/
theorem exists_of_isName {name : String} (h : isName name = true) :
    ∃ c cs, name.toList = c :: cs ∧ isNameStart c = true ∧ cs.all isNameChar = true := by
  rw [isName, Bool.and_eq_true] at h
  obtain ⟨hhead, hall⟩ := h
  cases hname : name.toList with
  | nil =>
    rw [hname] at hhead
    exact absurd hhead nofun
  | cons c cs =>
    rw [hname] at hhead hall
    rw [List.all_cons, Bool.and_eq_true] at hall
    exact ⟨c, cs, rfl, hhead, hall.2⟩

theorem isName_ofList {c : Char} {cs : List Char} (hc : isNameStart c = true)
    (hcs : cs.all isNameChar = true) : isName (String.ofList (c :: cs)) = true := by
  rw [isName, String.toList_ofList, List.all_cons, isNameChar_of_isNameStart hc, hcs]
  simpa using hc

theorem reads_name {name : String} {rest : List Char} (hname : isName name = true)
    (hrest : rest.head?.any isNameChar = false) : Reads Token.name name.toList name rest := by
  obtain ⟨c, cs, htext, hc, hcs⟩ := exists_of_isName hname
  have hrun : Reads (run isNameChar >>= fun more => pure (String.ofList (c :: more))) cs
      (String.ofList (c :: cs)) rest := reads_bind_pure _ (reads_run hcs hrest)
  have hall : Reads Token.name ([c] ++ cs) (String.ofList (c :: cs)) rest :=
    reads_bind (reads_char hc _) hrun
  rw [← htext, String.ofList_toList] at hall
  rw [htext]
  exact hall

theorem refuses_name {cs : List Char} (h : cs.head?.any isNameStart = false) :
    Refuses Token.name cs :=
  refuses_bind (refuses_char h)

/-- A name is read to its end. -/
theorem eq_append_of_name {before after : Cursor} {word : String}
    (h : Token.name.run before = some (word, after)) :
    before.rest = word.toList ++ after.rest ∧ after.rest.head?.any isNameChar = false := by
  obtain ⟨taken, cs⟩ := before
  cases cs with
  | nil => cases h
  | cons c cs =>
    by_cases hc : isNameStart c = true
    · have hread : Token.name.run ⟨taken, c :: cs⟩ =
          some (String.ofList (c :: cs.takeWhile isNameChar),
            ⟨taken + 1 + (cs.takeWhile isNameChar).length, cs.dropWhile isNameChar⟩) := by
        simp only [Token.name, StateT.run_bind]
        change ((if isNameStart c then some (c, (⟨taken + 1, cs⟩ : Cursor)) else none) >>= _) = _
        rw [if_pos hc]
        rfl
      rw [hread] at h
      cases h
      exact ⟨by simp, any_head?_dropWhile isNameChar cs⟩
    · rw [refuses_name (by simpa using hc)] at h
      cases h

/-! ## Kinds of characters -/

/-- A reader takes characters of one kind only. -/
def Within (p : Char → Bool) (reader : Scanner α) : Prop :=
  ∀ ⦃before a after⦄, reader.run before = some (a, after) →
    ∃ text, before.rest = text ++ after.rest ∧ text.all p = true

variable {p q : Char → Bool}

theorem within_pure (a : α) : Within p (pure a : Scanner α) := by
  intro before b after h
  simp only [StateT.run_pure, Option.pure_def, Option.some.injEq, Prod.mk.injEq] at h
  obtain ⟨-, rfl⟩ := h
  exact ⟨[], rfl, rfl⟩

theorem within_bind {first : Scanner α} {next : α → Scanner β} (hfirst : Within p first)
    (hnext : ∀ a, Within p (next a)) : Within p (first >>= next) := by
  intro before b after h
  simp only [StateT.run_bind, Option.bind_eq_bind, Option.bind_eq_some_iff] at h
  obtain ⟨⟨a, middle⟩, h₁, h₂⟩ := h
  obtain ⟨front, hfront, hfrontAll⟩ := hfirst h₁
  obtain ⟨back, hback, hbackAll⟩ := hnext a h₂
  refine ⟨front ++ back, ?_, ?_⟩
  · rw [hfront, hback, List.append_assoc]
  · rw [List.all_append, hfrontAll, hbackAll]
    rfl

theorem within_nothing : Within p (nothing : Scanner α) := by
  intro before a after h
  exact absurd h nofun

theorem within_ahead : Within p ahead := by
  intro before a after h
  simp only [ahead, StateT.run, Option.some.injEq, Prod.mk.injEq] at h
  obtain ⟨-, rfl⟩ := h
  exact ⟨[], rfl, rfl⟩

theorem within_char (h : ∀ c, q c = true → p c = true) : Within p (char q) := by
  intro before a after hrun
  simp only [char, StateT.run] at hrun
  split at hrun
  · cases hrun
  · next c cs hcs =>
    split at hrun
    · next hc =>
      simp only [Option.some.injEq, Prod.mk.injEq] at hrun
      obtain ⟨-, rfl⟩ := hrun
      exact ⟨[c], hcs, by simp [h c hc]⟩
    · cases hrun

theorem within_run (h : ∀ c, q c = true → p c = true) : Within p (run q) := by
  intro before a after hrun
  simp only [run, StateT.run, Option.some.injEq, Prod.mk.injEq] at hrun
  obtain ⟨-, rfl⟩ := hrun
  refine ⟨before.rest.takeWhile q, List.takeWhile_append_dropWhile.symm, ?_⟩
  rw [List.all_eq_true]
  exact fun c hc => h c (List.mem_takeWhile_imp hc)

theorem within_word {text : List Char} (h : text.all p = true) : Within p (word text) := by
  intro before a after hrun
  simp only [word, StateT.run, Option.map_eq_some_iff, Prod.mk.injEq] at hrun
  obtain ⟨rest, hrest, -, rfl⟩ := hrun
  exact ⟨text, afterWord_eq_some_iff.1 hrest, h⟩

theorem within_name (h : ∀ c, isNameChar c = true → p c = true) : Within p name :=
  within_bind (within_char fun c hc => h c (isNameChar_of_isNameStart hc)) fun _ =>
    within_bind (within_run h) fun _ => within_pure _

/-! ## What is given -/

/-- Whatever a reader gives has a property. -/
def Yields (p : α → Prop) (reader : Scanner α) : Prop :=
  ∀ ⦃before a after⦄, reader.run before = some (a, after) → p a

section Yields

variable {p : β → Prop}

theorem yields_pure {b : β} (h : p b) : Yields p (pure b : Scanner β) := by
  intro before a after hrun
  cases hrun
  exact h

theorem yields_nothing : Yields p (nothing : Scanner β) := by
  intro before a after hrun
  cases hrun

theorem yields_bind {first : Scanner α} {next : α → Scanner β} (h : ∀ a, Yields p (next a)) :
    Yields p (first >>= next) := by
  intro before b after hrun
  simp only [StateT.run_bind, Option.bind_eq_bind, Option.bind_eq_some_iff] at hrun
  obtain ⟨⟨a, middle⟩, -, hnext⟩ := hrun
  exact h a hnext

end Yields

/-! ## The reader of a token -/

/-- With which characters the readers of the kinds of token start, in their order. -/
def initials : List (Char → Bool) :=
  [(· == '/'), (· == '/'), (· == 'a'), (· == 'o'), (· == 'n'), (· == '('), (· == ')'), (· == 'b'),
    (· == '\x7d'), (· == 'r'), (· == 'i'), (· == 'l'), isNameStart, (· == '1'), (· == '0')]

theorem refuses_word_of_ne {c d : Char} {text cs : List Char} (h : (d == c) = false) :
    Refuses (word (c :: text)) (d :: cs) := by
  refine refuses_word fun hstarts => ?_
  rw [List.cons_prefix_cons] at hstarts
  rw [hstarts.1, beq_self_eq_true] at h
  exact absurd h nofun

/-- A reader finds nothing where a text does not start with one of its characters. -/
theorem refuses_of_initial (c : Char) (cs : List Char) :
    List.Forall₂ (fun reader starts => starts c = false → Refuses reader (c :: cs))
      scanners initials := by
  unfold scanners initials
  repeat' constructor
  all_goals intro h
  all_goals first
    | exact refuses_bind (refuses_word_of_ne h)
    | exact refuses_bind (refuses_bind (refuses_word_of_ne h))
    | exact refuses_bind (refuses_name h)

/-- The readers in front of the `i`-th find nothing where none of them starts. -/
theorem refuses_of_mem_take {c : Char} {i : Nat}
    (hc : ((initials.take i).all fun starts => !starts c) = true) (cs : List Char) :
    ∀ reader ∈ scanners.take i, Refuses reader (c :: cs) := by
  have hpairs := List.forall₂_take i (refuses_of_initial c cs)
  generalize scanners.take i = readers at hpairs
  generalize initials.take i = kinds at hpairs hc
  induction hpairs with
  | nil => exact fun reader hreader => absurd hreader List.not_mem_nil
  | cons hfirst _ ih =>
    rw [List.all_cons, Bool.and_eq_true, Bool.not_eq_true'] at hc
    rw [List.forall_mem_cons]
    exact ⟨hfirst hc.1, ih hc.2⟩

/-- The first reader that takes something gives the token. -/
theorem scan_of_reads (i : Nat) {reader : Scanner Token} {text rest : List Char} {token : Token}
    (hreader : scanners[i]? = some reader)
    (hbefore : ∀ other ∈ scanners.take i, Refuses other (text ++ rest))
    (hreads : Reads reader text token rest) :
    scan (text ++ rest) = some (token, text.length) := by
  obtain ⟨hi, rfl⟩ := List.getElem?_eq_some_iff.1 hreader
  have hsplit : scanners = scanners.take i ++ scanners[i] :: scanners.drop (i + 1) := by
    rw [List.getElem_cons_drop, List.take_append_drop]
  have hnone : (scanners.take i).findSome? (fun other => other.run ⟨0, text ++ rest⟩) = none :=
    List.findSome?_eq_none_iff.2 fun other hother => hbefore other hother 0
  have hsome : scanAt ⟨0, text ++ rest⟩ = some (token, ⟨0 + text.length, rest⟩) := by
    rw [scanAt, hsplit, List.findSome?_append, hnone, Option.none_or, List.findSome?_cons,
      hreads 0]
  rw [scan, hsome, Nat.zero_add]
  rfl

/-- A reader gives the token if no reader in front of it starts like the text. -/
theorem scan_of_initial (i : Nat) {reader : Scanner Token} {c : Char} {cs rest : List Char}
    {token : Token} (hreader : scanners[i]? = some reader)
    (hc : ((initials.take i).all fun starts => !starts c) = true)
    (hreads : Reads reader (c :: cs) token rest) :
    scan (c :: cs ++ rest) = some (token, (c :: cs).length) :=
  scan_of_reads i hreader (refuses_of_mem_take hc (cs ++ rest)) hreads

end Gatework.Token
