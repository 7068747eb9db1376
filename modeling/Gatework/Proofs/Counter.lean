import Gatework.Program
import Gatework.Proofs.Expansion.Counter
import Gatework.Proofs.Forest.RoundTrip

/-!
# Counters count

A text that describes a counter is read, expanded and simulated, and its outputs show how
often its switch has been pressed.  This is for any number of bits that have numbers for
their wires, and for any number of presses.

There are four groups.

* The pieces of which the text of a counter is put together.
* `Counter.text` is the text of a counter, and `Counter.lexes_text` says that its tokens
  are those of `Counter.forest`.
* The trees of a counter are regular, so their tokens build them again.
* `Counter.ofText_counts` takes a counter from its text to what its outputs show after
  each press and each release.
-/

namespace Gatework

/-! ## Pieces of the text -/

namespace Token

variable {rest : List Char}

theorem lexes_groupOpen (rest : List Char) : Lexes ['('] [.groupOpen] rest :=
  show Lexes groupOpen.text.toList [groupOpen] rest from lexes_text rfl nofun nofun

theorem lexes_close (rest : List Char) : Lexes [')'] [.close .round] rest :=
  show Lexes (text (close .round)).toList [close .round] rest from lexes_text rfl nofun nofun

theorem lexes_one (rest : List Char) : Lexes ['1'] [.literal true] rest :=
  show Lexes (text (literal true)).toList [literal true] rest from lexes_text rfl nofun nofun

/-- A name that starts with none of the characters with which other tokens start. -/
theorem lexes_name {name : String} {c : Char} {cs : List Char} (hname : isName name = true)
    (htext : name.toList = c :: cs)
    (hfirst : ((initials.take 12).all fun starts => !starts c) = true)
    (hrest : rest.head?.any isNameChar = false) : Lexes name.toList [.identifier name] rest := by
  have hreads := reads_bind_pure Token.identifier (reads_name hname hrest)
  obtain ⟨_, _, hcons, hc, -⟩ := exists_of_isName hname
  cases htext.symm.trans hcons
  rw [htext] at hreads ⊢
  exact .of_scan (isGap_of_not_isBlank (isBlank_of_isNameChar (isNameChar_of_isNameStart hc)))
    (scan_of_initial 12 rfl hfirst hreads)

/-- The header of an assignment, with the space behind it. -/
theorem lexes_assignment {names : List String} (hne : names ≠ [])
    (hnames : names.all isName = true) :
    Lexes ((assignment names).text.toList ++ [' ']) [.assignment names] rest := by
  have hregular : (assignment names).isRegular = true := by
    rw [isRegular, hnames, List.isEmpty_eq_false_iff.2 hne]
    rfl
  have hspace : Lexes [' '] [] rest := .gap rfl rest
  exact (lexes_text hregular nofun nofun).append hspace

end Token

/-! ## The text of a counter -/

namespace Counter

/-- The line of a bit. -/
def line (i : Nat) : String :=
  "let " ++ wireName (i + 1) ++ " _ = tflipflop(" ++ wireName i ++ " 1)\n"

/-- The text of a counter, with a line for the switch, a line for each bit and a line for
the group of the bits. -/
def text (n : Nat) : String :=
  "let t = toggle()\n" ++ String.join ((List.range' 0 n).map line) ++
    ("(" ++ " ".intercalate ((List.range' 1 n).map wireName) ++ ")\n")

example : text 2 = "let t = toggle()\nlet q1 _ = tflipflop(t 1)\nlet q2 _ = tflipflop(q1 1)\n" ++
    "(q1 q2)\n" := by decide

theorem exists_toList_wireName (i : Nat) : ∃ c cs, (wireName i).toList = c :: cs ∧
    (c = 't' ∨ c = 'q') ∧ cs.all Token.isNameChar = true := by
  cases i with
  | zero => exact ⟨'t', [], rfl, .inl rfl, rfl⟩
  | succ i =>
    refine ⟨'q', (i + 1).repr.toList, ?_, .inr rfl, ?_⟩
    · rw [wireName_succ, String.toList_append]
      rfl
    · rw [Nat.toList_repr, List.all_eq_true]
      intro c hc
      rw [Token.isNameChar, Char.isAlphanum, Nat.isDigit_of_mem_toDigits (by decide) le_rfl hc,
        Bool.or_true, Bool.true_or]

theorem isName_wireName (i : Nat) : Token.isName (wireName i) = true := by
  obtain ⟨c, cs, htext, hc, hcs⟩ := exists_toList_wireName i
  rw [Token.isName, htext, List.all_cons, hcs]
  rcases hc with rfl | rfl <;> rfl

theorem lexes_wireName (i : Nat) {rest : List Char}
    (hrest : rest.head?.any Token.isNameChar = false) :
    Lexes (wireName i).toList [.identifier (wireName i)] rest := by
  obtain ⟨c, cs, htext, hc, -⟩ := exists_toList_wireName i
  refine Token.lexes_name (isName_wireName i) htext ?_ hrest
  rcases hc with rfl | rfl <;> decide

theorem toList_line (i : Nat) : (line i).toList =
    ((Token.assignment [wireName (i + 1), Draft.discarded]).text.toList ++ [' ']) ++
      (Builtin.tFlipFlop.name.toList ++ (['('] ++ ((wireName i).toList ++
        ([' '] ++ (['1'] ++ ([')'] ++ ['\n'])))))) := by
  simp [line, Token.text, Draft.discarded, Builtin.name]

/-- The line of a bit is read as the tokens of its trees. -/
theorem lexes_line (i : Nat) (rest : List Char) :
    Lexes (line i).toList (Node.tokensAll (stageNodes i)) rest := by
  have hnames : [wireName (i + 1), Draft.discarded].all Token.isName = true := by
    rw [List.all_cons, isName_wireName]
    decide
  have htokens : Node.tokensAll (stageNodes i) =
      [Token.assignment [wireName (i + 1), Draft.discarded]] ++
        ([Token.identifier Builtin.tFlipFlop.name] ++ ([Token.groupOpen] ++
          ([Token.identifier (wireName i)] ++ ([] ++ ([Token.literal true] ++
            ([Token.close .round] ++ [])))))) := rfl
  have hname : Token.isName Builtin.tFlipFlop.name = true := by decide
  rw [toList_line, htokens]
  refine .append (Token.lexes_assignment (List.cons_ne_nil _ _) hnames) ?_
  refine .append (Token.lexes_name hname rfl (by decide) rfl) ?_
  refine .append (Token.lexes_groupOpen _) (.append (lexes_wireName i rfl) ?_)
  exact .append (.gap rfl _) (.append (Token.lexes_one _) (.append (Token.lexes_close _)
    (.gap rfl _)))

/-- Names with spaces between them are read as these names. -/
theorem lexes_wireNames (numbers : List Nat) {rest : List Char}
    (hrest : rest.head?.any Token.isNameChar = false) :
    Lexes (Token.spaced (numbers.map wireName))
      (numbers.map fun i => .identifier (wireName i)) rest := by
  induction numbers with
  | nil =>
    rw [List.map_nil, Token.spaced_nil]
    exact Lexes.nil rest
  | cons i numbers ih =>
    rw [List.map_cons, Token.spaced_cons]
    cases numbers with
    | nil => exact (lexes_wireName i hrest).append (.nil rest)
    | cons j numbers =>
      have hspace : Lexes [' '] [] (Token.spaced ((j :: numbers).map wireName) ++ rest) :=
        .gap rfl _
      exact (lexes_wireName i rfl).append (hspace.append ih)

theorem lexes_lines (numbers : List Nat) (rest : List Char) :
    Lexes (String.join (numbers.map line)).toList (Node.tokensAll (numbers.flatMap stageNodes))
      rest := by
  induction numbers with
  | nil => exact Lexes.nil rest
  | cons i numbers ih =>
    rw [List.map_cons, String.join_cons, String.toList_append, List.flatMap_cons,
      Node.tokensAll_append]
    exact .append (lexes_line i _) ih

theorem tokensAll_identifiers (numbers : List Nat) :
    Node.tokensAll (numbers.map fun i => .identifier .start (wireName i)) =
      numbers.map fun i => .identifier (wireName i) := by
  induction numbers with
  | nil => rfl
  | cons i numbers ih =>
    rw [List.map_cons, Node.tokensAll, ih]
    rfl

theorem toList_switchLine : "let t = toggle()\n".toList =
    ((Token.assignment [wireName 0]).text.toList ++ [' ']) ++
      (Builtin.toggle.name.toList ++ (['('] ++ ([')'] ++ ['\n']))) := by
  simp [Token.text, Builtin.name, wireName]

theorem lexes_switchLine (rest : List Char) :
    Lexes "let t = toggle()\n".toList (Node.tokensAll switchNodes) rest := by
  have htokens : Node.tokensAll switchNodes =
      [Token.assignment [wireName 0]] ++ ([Token.identifier Builtin.toggle.name] ++
        ([Token.groupOpen] ++ ([Token.close .round] ++ []))) := rfl
  have hnames : [wireName 0].all Token.isName = true := by decide
  have hname : Token.isName Builtin.toggle.name = true := by decide
  rw [toList_switchLine, htokens]
  refine .append (Token.lexes_assignment (List.cons_ne_nil _ _) hnames) ?_
  refine .append (Token.lexes_name hname rfl (by decide) rfl) ?_
  exact .append (Token.lexes_groupOpen _) (.append (Token.lexes_close _) (.gap rfl _))

/-- The text of a counter is read as the tokens of its trees. -/
theorem lexes_text (n : Nat) : Lexes (text n).toList (Node.tokensAll (forest n)) [] := by
  have hgroup : Lexes ("(" ++ " ".intercalate ((List.range' 1 n).map wireName) ++ ")\n").toList
      (Node.tokensAll
        [.group .start ((List.range' 1 n).map fun i => .identifier .start (wireName i))]) [] := by
    have htext : ("(" ++ " ".intercalate ((List.range' 1 n).map wireName) ++ ")\n").toList =
        ['('] ++ (Token.spaced ((List.range' 1 n).map wireName) ++ ([')'] ++ ['\n'])) := by
      simp [Token.spaced]
    rw [htext, Node.tokensAll, Node.tokensAll, Node.tokens, tokensAll_identifiers, List.append_nil]
    exact .append (Token.lexes_groupOpen _) (.append (lexes_wireNames _ rfl)
      (.append (Token.lexes_close _) (.gap rfl _)))
  have htext : (text n).toList = "let t = toggle()\n".toList ++
      (String.join ((List.range' 0 n).map line)).toList ++
        ("(" ++ " ".intercalate ((List.range' 1 n).map wireName) ++ ")\n").toList :=
    String.toList_append.trans (congrArg (· ++ _) String.toList_append)
  rw [htext, forest, Node.tokensAll_append, Node.tokensAll_append]
  exact .append (.append (lexes_switchLine _) (lexes_lines _ _)) hgroup

end Counter

/-! ## The trees of a counter are regular -/

namespace Node

/-- A list without returns is regular, if it has no names or no groups. -/
theorem isRegularList_of_forall {nodes : List Node}
    (hreturns : ∀ node ∈ nodes, node.isReturn = false)
    (happart : (∀ node ∈ nodes, node.isIdentifier = false) ∨
      ∀ node ∈ nodes, node.startsWithGroup = false) : isRegularList nodes = true := by
  rw [isRegularList, Bool.and_eq_true]
  induction nodes with
  | nil => exact ⟨rfl, rfl⟩
  | cons node nodes ih =>
    rw [List.forall_mem_cons] at hreturns
    rw [List.forall_mem_cons, List.forall_mem_cons] at happart
    obtain ⟨hlast, hkeeps⟩ := ih hreturns.2 (happart.imp And.right And.right)
    have hnode : (node.isIdentifier && nodes.head?.any startsWithGroup) = false := by
      rcases happart with hnames | hgroups
      · rw [hnames.1, Bool.false_and]
      · cases nodes with
        | nil => exact Bool.and_false _
        | cons next nodes =>
          rw [List.head?_cons, Option.any_some, (List.forall_mem_cons.1 hgroups.2).1,
            Bool.and_false]
    rw [returnsLast, keepsNames, hreturns.1, hnode, hlast, hkeeps]
    exact ⟨rfl, rfl⟩

end Node

namespace Counter

theorem isPlainName_wireName (i : Nat) : Token.isPlainName (wireName i) = true := by
  have hkeywords : ∀ word ∈ Token.keywords, word.toList.head? ≠ some 't' ∧
      word.toList.head? ≠ some 'q' := by decide
  have hnone : wireName i ∉ Token.keywords := by
    intro hmem
    obtain ⟨c, cs, htext, hc, -⟩ := exists_toList_wireName i
    have hhead := hkeywords _ hmem
    rw [htext] at hhead
    rcases hc with rfl | rfl
    · exact hhead.1 rfl
    · exact hhead.2 rfl
  rw [Token.isPlainName, isName_wireName, List.contains_eq_mem, decide_eq_false hnone]
  rfl

theorem isRegular_assigned (i : Nat) :
    (Token.isName (wireName i) && !reservedWords.contains (wireName i)) = true := by
  have hplain := isPlainName_wireName i
  have hwords : ∀ word ∈ reservedWords, word ∈ Token.keywords := by decide
  rw [Token.isPlainName, Bool.and_eq_true, Bool.not_eq_true', List.contains_eq_mem,
    decide_eq_false_iff_not] at hplain
  rw [hplain.1, List.contains_eq_mem, decide_eq_false (mt (hwords _) hplain.2)]
  rfl

theorem forall_mem_forest {n : Nat} {p : Node → Prop} (hswitch : ∀ node ∈ switchNodes, p node)
    (hstages : ∀ i, ∀ node ∈ stageNodes i, p node)
    (hgroup : p (.group .start ((List.range' 1 n).map fun i => .identifier .start (wireName i)))) :
    ∀ node ∈ forest n, p node := by
  rw [forest, List.forall_mem_append, List.forall_mem_append, List.forall_mem_singleton]
  refine ⟨⟨hswitch, fun node hnode => ?_⟩, hgroup⟩
  obtain ⟨i, -, hmem⟩ := List.mem_flatMap.1 hnode
  exact hstages i node hmem

theorem all_isRegular_stageNodes (i : Nat) :
    ∀ node ∈ stageNodes i, node.all Node.isRegular = true := by
  have hdiscarded : (Token.isName Draft.discarded &&
      !reservedWords.contains Draft.discarded) = true := by decide
  have hname : Token.isPlainName Builtin.tFlipFlop.name = true := by decide
  have hargs : Node.allIn Node.isRegular [.identifier .start (wireName i), .literal .start true] =
      true :=
    Node.allIn_of_forall (List.forall_mem_cons.2
      ⟨isPlainName_wireName i, List.forall_mem_singleton.2 rfl⟩)
  refine List.forall_mem_cons.2 ⟨?_, List.forall_mem_singleton.2 ?_⟩
  · show (true && ((_ && _) && ((_ && _) && true))) = true
    rw [isRegular_assigned, hdiscarded]
    rfl
  · rw [Node.all, Node.isRegular, hname, hargs]
    rfl

theorem all_isRegular_group (numbers : List Nat) :
    (Node.group .start (numbers.map fun i => .identifier .start (wireName i))).all
      Node.isRegular = true := by
  have hidentifier : ∀ node ∈ numbers.map fun i => Node.identifier .start (wireName i),
      ∃ i, node = .identifier .start (wireName i) := by
    intro node hnode
    obtain ⟨i, -, rfl⟩ := List.mem_map.1 hnode
    exact ⟨i, rfl⟩
  have hlist : Node.isRegularList (numbers.map fun i => .identifier .start (wireName i)) =
      true := by
    refine Node.isRegularList_of_forall (fun node hnode => ?_) (.inr fun node hnode => ?_)
    all_goals
      obtain ⟨i, rfl⟩ := hidentifier node hnode
      rfl
  rw [Node.all, Node.isRegular, hlist, Bool.true_and]
  refine Node.allIn_of_forall fun node hnode => ?_
  obtain ⟨i, rfl⟩ := hidentifier node hnode
  exact isPlainName_wireName i

/-- The trees of a counter are regular. -/
theorem isRegular_forest (n : Nat) : Forest.isRegular (forest n) = true := by
  have hkinds : ∀ node ∈ forest n, node.isReturn = false ∧ node.isIdentifier = false :=
    forall_mem_forest
      (List.forall_mem_cons.2 ⟨⟨rfl, rfl⟩, List.forall_mem_singleton.2 ⟨rfl, rfl⟩⟩)
      (fun _ => List.forall_mem_cons.2 ⟨⟨rfl, rfl⟩, List.forall_mem_singleton.2 ⟨rfl, rfl⟩⟩)
      ⟨rfl, rfl⟩
  have hswitch : ∀ node ∈ switchNodes, node.all Node.isRegular = true := by decide
  rw [Forest.isRegular, Bool.and_eq_true]
  exact ⟨Node.isRegularList_of_forall (fun node hnode => (hkinds node hnode).1)
      (.inl fun node hnode => (hkinds node hnode).2),
    Node.allIn_of_forall
      (forall_mem_forest hswitch all_isRegular_stageNodes (all_isRegular_group _))⟩

end Counter

/-! ## Counters from texts -/

/-- A text with the tokens of regular trees is read as these trees, apart from positions. -/
theorem Forest.exists_ofText_of_lexes (origin : Origin) {text : String} {nodes : List Node}
    (hregular : isRegular nodes = true) (h : Lexes text.toList (Node.tokensAll nodes) []) :
    ∃ read, ofText origin text = .ok read ∧ Node.unplacedAll read = Node.unplacedAll nodes := by
  rw [isRegular, Bool.and_eq_true] at hregular
  obtain ⟨hlist, hnodes⟩ := hregular
  obtain ⟨htokens, last, hending⟩ := h.reading
  have hsame := unplaced_ofTextWith (importCollection origin) htokens hending
  have hbuilt := Node.parsesAll_of_isRegular (importCollection origin) nodes hnodes .empty
    (Scaffold.takesAll_of_isRegularList hlist [])
  have hdone : unplacedResult Node.unplacedAll (ofText origin text) =
      .ok (Node.unplacedAll nodes) := by
    refine hsame.trans ?_
    rw [hbuilt]
    show unplacedResult Node.unplacedAll
      (Scaffold.finish .start ⟨(Node.unplacedAll nodes).reverse ++ [], []⟩) = _
    rw [List.append_nil, finish_of_allIn hnodes, unplacedResult, Node.unplacedAll_unplacedAll]
  cases hresult : ofText origin text with
  | error fault =>
    rw [hresult] at hdone
    cases hdone
  | ok read =>
    rw [hresult] at hdone
    exact ⟨read, rfl, Except.ok.inj hdone⟩

namespace Counter

theorem unplacedAll_forest (n : Nat) : Node.unplacedAll (forest n) = forest n := by
  rw [Node.unplacedAll_eq_map]
  refine (List.map_congr_left (g := id) (forall_mem_forest ?_ ?_ ?_)).trans (List.map_id _)
  · exact List.forall_mem_cons.2 ⟨rfl, List.forall_mem_singleton.2 rfl⟩
  · exact fun i => List.forall_mem_cons.2 ⟨rfl, List.forall_mem_singleton.2 rfl⟩
  · rw [Node.unplaced, Node.unplacedAll_eq_map, List.map_map]
    rfl

/-- A counter of some bits counts the presses of its switch, downwards from zero and modulo
the power of two.  Every simulation settles, and the release of the switch changes nothing.
The bound says that the wires have numbers of their own: one is the switch's, and each bit
has three. -/
theorem ofText_counts {n : Nat} (hn : 0 < n) (hsmall : 3 * n + 1 < UInt32.size)
    (origin : Forest.Origin) (limit : UInt64) :
    ∃ compiled, Netlist.ofText origin limit (text n) = .ok compiled ∧
      compiled.outputs.length = n ∧ compiled.simulate.1.converged = true ∧
      ∀ k : Nat, ((compiled.afterPresses k).reading : ℤ) = (-k : ℤ) % 2 ^ n ∧
        (compiled.afterPresses k).pushed.1.converged = true ∧
        ((compiled.afterPresses k).pushed.2.reading : ℤ) = (-(k + 1 : ℕ) : ℤ) % 2 ^ n ∧
        (compiled.afterPresses k).pushed.2.released.1.converged = true := by
  obtain ⟨nodes, hread, hnodes⟩ :=
    Forest.exists_ofText_of_lexes origin (isRegular_forest n) (lexes_text n)
  rw [unplacedAll_forest] at hnodes
  obtain ⟨compiled, wire, stages, hcompiled, rfl, houtputs, hcounts, hunlit⟩ :=
    exists_ofForest hn hsmall limit hnodes
  have hzero : ∀ bit ∈ Counts.bits stages compiled.circuit, bit = false := by
    intro bit hbit
    obtain ⟨stage, -, rfl⟩ := List.mem_map.1 hbit
    exact hunlit stage.bit
  refine ⟨compiled, ?_, ?_, hcounts.simulate_off.1,
    hcounts.reading_afterPresses hzero houtputs⟩
  · rw [Netlist.ofText, hread]
    show (Netlist.ofForest limit nodes).mapError ProgramError.expansion = _
    rw [hcompiled]
    rfl
  · rw [houtputs, List.length_map]

/-- Two bits show one after three presses, and zero when the switch is pushed once more. -/
theorem ofText_counts_two_bits :
    0 < 2 ∧ 3 * 2 + 1 < UInt32.size ∧
      ∃ compiled, Netlist.ofText .client defaultLimit (text 2) = .ok compiled ∧
        compiled.outputs.length = 2 ∧ compiled.simulate.1.converged = true ∧
        (compiled.afterPresses 3).reading = 1 ∧
        (compiled.afterPresses 3).pushed.1.converged = true ∧
        (compiled.afterPresses 3).pushed.2.reading = 0 ∧
        (compiled.afterPresses 3).pushed.2.released.1.converged = true := by
  have hn : 0 < 2 := by decide
  have hsmall : 3 * 2 + 1 < UInt32.size := by decide
  obtain ⟨compiled, hcompiled, hlength, hfirst, hcounts⟩ :=
    ofText_counts hn hsmall .client defaultLimit
  obtain ⟨hreading, hpushed, hnext, hreleased⟩ := hcounts 3
  exact ⟨hn, hsmall, compiled, hcompiled, hlength, hfirst, Int.ofNat.inj hreading, hpushed,
    Int.ofNat.inj hnext, hreleased⟩

end Counter

end Gatework
