import Gatework.Proofs.Expansion.Turns
import Gatework.Proofs.Expansion.WellFormed

/-!
# Wires that nothing mentions

A wire that no gate and no name of a draft mentions is not mentioned again, however
the expansion goes on, as long as no piece of the expansion still holds it.

There are five groups.

* `Draft.Gone` says that nothing mentions a wire.  An assignment to a bound name makes
  the wire gone to which the name was bound (`gone_assign`).
* `Draft.Keeps` says that what is gone stays so while wires are computed from others,
  with one lemma for each change of a draft.
* Pieces of the expansion that keep what is gone, if their steps do.
* `keeping_step` ties the recursion: whatever node is expanded, what is gone stays so.
* What is gone after a turn inside a run, and not held, is gone after the run
  (`Inside.keeps`).
-/

namespace Gatework

namespace Draft

/-! ## Gone wires -/

/-- No gate and no name mentions a wire, which has been given out before. -/
structure Gone (wire : WireId) (d : Draft) : Prop where
  numbered : d.Numbered
  known : wire ∈ d.wires.ids
  gates : ∀ gate ∈ d.gates, wire ∉ gate.inputs ++ gate.outputs
  scopes : ∀ scope ∈ d.scopes, ∀ binding ∈ scope.bindings, binding.2 ≠ wire

variable {d d' d'' : Draft}

/-- An assignment to a bound name puts the new wire in the place of the old one. -/
theorem assign_eq_rewire {name : String} {old new : WireId} (hname : name ≠ discarded)
    (hbound : d.scope.bindings.find? name = some old) (hne : old ≠ new) :
    d.assign name new = ((d.noteRebinding name old new).bind name new).rewire old new := by
  rw [assign, if_neg hname, hbound]
  dsimp only
  rw [if_neg hne]

/-- The pins of rewired gates are those of the gates before, with the new wire in the
place of the old one. -/
theorem exists_of_mem_gates_rewire {old new wire : WireId} {gate : Gate}
    (hgate : gate ∈ (d.rewire old new).gates) (hpin : wire ∈ gate.inputs ++ gate.outputs) :
    ∃ before ∈ d.gates, ∃ other ∈ before.inputs ++ before.outputs,
      (if other = old then new else other) = wire := by
  obtain ⟨before, hbefore, rfl⟩ := List.mem_map.1 hgate
  simp only [Gate.rewire, ← List.map_append] at hpin
  exact ⟨before, hbefore, List.mem_map.1 hpin⟩

theorem exists_of_mem_scopes_rewire {old new : WireId} {scope : Scope} {binding : String × WireId}
    (hscope : scope ∈ (d.rewire old new).scopes) (hbinding : binding ∈ scope.bindings) :
    ∃ before ∈ d.scopes, ∃ bound ∈ before.bindings,
      (if bound.2 = old then new else bound.2) = binding.2 := by
  have hscopes : (d.rewire old new).scopes = d.scopes.map (Scope.rewire old new) := rfl
  rw [hscopes] at hscope
  obtain ⟨before, hbefore, rfl⟩ := List.mem_map.1 hscope
  obtain ⟨bound, hbound, rfl⟩ := List.mem_map.1 hbinding
  exact ⟨before, hbefore, bound, hbound, rfl⟩

theorem gone_rewire (hd : d.Numbered) {old new : WireId} (hknown : old ∈ d.wires.ids)
    (hne : old ≠ new) : (d.rewire old new).Gone old := by
  have hrewired : ∀ other : WireId, (if other = old then new else other) ≠ old := by
    intro other
    split
    · exact hne.symm
    · assumption
  refine ⟨⟨hd.last, hd.numbers⟩, hknown, ?_, ?_⟩
  · intro gate hgate hpin
    obtain ⟨_, _, other, _, heq⟩ := exists_of_mem_gates_rewire hgate hpin
    exact hrewired other heq
  · intro scope hscope binding hbinding heq
    obtain ⟨_, _, bound, _, hbound⟩ := exists_of_mem_scopes_rewire hscope hbinding
    exact hrewired bound.2 (hbound.trans heq)

/-- The wire to which a name was bound is gone after an assignment of another. -/
theorem gone_assign (hd : d.Numbered) {name : String} {old new : WireId}
    (hname : name ≠ discarded) (hbound : d.scope.bindings.find? name = some old) (hne : old ≠ new)
    (hknown : old ∈ d.wires.ids) : (d.assign name new).Gone old := by
  have hnumbered : ((d.noteRebinding name old new).bind name new).Numbered :=
    ⟨hd.last, hd.numbers⟩
  rw [assign_eq_rewire hname hbound hne]
  exact gone_rewire hnumbered hknown hne

/-! ## Changes -/

/-- From a draft and some wires, others are computed, and another draft.  A wire that is
gone and is none of the former stays gone, and is none of the latter. -/
structure Keeps (held : List WireId) (d : Draft) (wires : List WireId) (d' : Draft) : Prop where
  mem_ids : ∀ id ∈ d.wires.ids, id ∈ d'.wires.ids
  gone : d'.wires.size < UInt32.size → ∀ wire, d.Gone wire → wire ∉ held →
    d'.Gone wire ∧ wire ∉ wires

namespace Keeps

variable {held held' wires wires' : List WireId}

theorem size_le (h : Keeps held d wires d') : d.wires.size ≤ d'.wires.size :=
  Arena.size_le_of_subset h.mem_ids

theorem refl (wires : List WireId) : Keeps wires d wires d :=
  ⟨fun _ hid => hid, fun _ _ hgone hheld => ⟨hgone, hheld⟩⟩

theorem trans (h : Keeps held d wires d') (h' : Keeps wires d' wires' d'') :
    Keeps held d wires' d'' := by
  refine ⟨fun id hid => h'.mem_ids id (h.mem_ids id hid), fun hsmall wire hgone hheld => ?_⟩
  obtain ⟨hgone', hwires⟩ := h.gone (Nat.lt_of_le_of_lt h'.size_le hsmall) wire hgone hheld
  exact h'.gone hsmall wire hgone' hwires

/-- Wires are computed one after the other, each from its own. -/
theorem append (h : Keeps held d wires d') (h' : Keeps held' d' wires' d'') :
    Keeps (held ++ held') d (wires ++ wires') d'' := by
  refine ⟨fun id hid => h'.mem_ids id (h.mem_ids id hid), fun hsmall wire hgone hheld => ?_⟩
  rw [List.mem_append, not_or] at hheld
  obtain ⟨hmid, hwires⟩ := h.gone (Nat.lt_of_le_of_lt h'.size_le hsmall) wire hgone hheld.1
  obtain ⟨hlast, hwires'⟩ := h'.gone hsmall wire hmid hheld.2
  refine ⟨hlast, fun hmem => ?_⟩
  exact (List.mem_append.1 hmem).elim hwires hwires'

/-- Other wires are held meanwhile. -/
theorem frame (h : Keeps held d wires d') (more : List WireId) :
    Keeps (more ++ held) d (more ++ wires) d' := (refl more).append h

/-- The wires are held longer. -/
theorem hold (h : Keeps held d [] d') : Keeps held d held d' :=
  ⟨h.mem_ids, fun hsmall wire hgone hheld => ⟨(h.gone hsmall wire hgone hheld).1, hheld⟩⟩

theorem mono (h : Keeps held d wires d') (hheld : held ⊆ held') (hwires : wires' ⊆ wires) :
    Keeps held' d wires' d' :=
  ⟨h.mem_ids, fun hsmall wire hgone hnot =>
    (h.gone hsmall wire hgone fun hmem => hnot (hheld hmem)).imp_right
      fun hother hmem => hother (hwires hmem)⟩

end Keeps

/-- A change that leaves wires and gates alone, and binds no further wire. -/
theorem keeps_of_scopes (hwires : d'.wires = d.wires) (hlast : d'.lastWire = d.lastWire)
    (hgates : d'.gates = d.gates)
    (hscopes : ∀ scope ∈ d'.scopes, ∃ other ∈ d.scopes, other.bindings = scope.bindings) :
    Keeps [] d [] d' := by
  refine ⟨fun id hid => by rwa [hwires], fun _ wire hgone _ => ⟨?_, List.not_mem_nil⟩⟩
  constructor
  · exact ⟨by rw [hlast, hwires, hgone.numbered.last], by rw [hwires, hgone.numbered.numbers]⟩
  · rw [hwires]
    exact hgone.known
  · rw [hgates]
    exact hgone.gates
  · intro scope hscope binding hbinding
    obtain ⟨other, hother, heq⟩ := hscopes scope hscope
    exact hgone.scopes other hother binding (heq ▸ hbinding)

theorem keeps_define (block : Block) : Keeps [] d [] (d.define block) := by
  refine keeps_of_scopes rfl rfl rfl fun scope hscope => ?_
  rcases List.mem_cons.1 hscope with rfl | hscope
  · exact ⟨d.scope, List.mem_cons_self, rfl⟩
  · exact ⟨scope, List.mem_cons_of_mem _ hscope, rfl⟩

theorem keeps_call {name : String} {call : Call Draft} (h : d.call? name = some call) :
    Keeps [] d [] call.holder := by
  obtain ⟨scope, outer, heq, hscopes, -⟩ := call?_eq_some h
  rw [heq]
  refine keeps_of_scopes rfl rfl rfl fun inner hinner => ?_
  have hmem : inner.uncounted ∈ d.scopes.map Scope.uncounted :=
    hscopes ▸ List.mem_map_of_mem hinner
  obtain ⟨other, hother, hsame⟩ := List.mem_map.1 hmem
  exact ⟨other, hother, (congrArg Scope.bindings hsame :)⟩

theorem keeps_announce (name : String) : Keeps [] d [] (d.announce name) :=
  keeps_of_scopes rfl rfl rfl fun scope hscope => ⟨scope, hscope, rfl⟩

/-- A scope opens that binds wires which were held. -/
theorem keeps_enter (scope : Scope) : Keeps (scope.bindings.map Prod.snd) d [] (d.enter scope) := by
  refine ⟨fun id hid => hid, fun _ wire hgone hheld => ⟨?_, List.not_mem_nil⟩⟩
  refine ⟨⟨hgone.numbered.last, hgone.numbered.numbers⟩, hgone.known, hgone.gates, ?_⟩
  intro other hother binding hbinding heq
  rcases List.mem_cons.1 hother with rfl | hother
  · exact hheld (List.mem_map.2 ⟨binding, hbinding, heq⟩)
  · exact hgone.scopes other hother binding hbinding heq

theorem keeps_leave : Keeps [] d [] d.leave := by
  unfold leave
  split
  · exact .refl []
  · next scope outer houter =>
    refine keeps_of_scopes rfl rfl rfl fun inner hinner => ⟨inner, ?_, rfl⟩
    rw [scopes, houter]
    exact List.mem_cons_of_mem _ hinner

theorem keeps_note (expanded : Expanded) : Keeps [] d [] (d.noteExpanded expanded) :=
  keeps_of_scopes rfl rfl rfl fun scope hscope => ⟨scope, hscope, rfl⟩

/-- The outputs of a new gate were not there before, so they are not gone. -/
theorem keeps_place {kind : GateKind} {label : String} {inputs outputs : List WireId} {count : Nat}
    {context : ContextId} (h : d.place kind label inputs count context = (outputs, d')) :
    Keeps inputs d outputs d' := by
  have hmem := (mem_ids_place kind label inputs count context d).2
  have hgates := (gates_place kind label inputs count context d).1
  obtain ⟨wires, gates, lastWire, lastGate, heq⟩ := place_eq kind label inputs count context d
  rw [h] at hmem hgates heq
  have hscopes : d'.scopes = d.scopes := (congrArg scopes heq :)
  refine ⟨hmem, fun hsmall wire hgone hheld => ?_⟩
  have hplaced : (d.place kind label inputs count context).2.wires.size < UInt32.size := by
    rw [h]
    exact hsmall
  obtain ⟨hnumbered, hids, -⟩ := hgone.numbered.place hplaced
  rw [h] at hnumbered hids
  have hnew : wire ∉ outputs := by
    intro hout
    have hnodup := d'.wires.nodup
    change d'.wires.ids.Nodup at hnodup
    rw [hids] at hnodup
    exact (List.nodup_append.1 hnodup).2.2 wire (List.mem_reverse.2 hout) wire hgone.known rfl
  refine ⟨⟨hnumbered, hmem wire hgone.known, ?_, ?_⟩, hnew⟩
  · intro gate hgate
    rw [hgates] at hgate
    rcases List.mem_cons.1 hgate with rfl | hgate
    · exact fun hpin => (List.mem_append.1 hpin).elim hheld hnew
    · exact hgone.gates gate hgate
  · rw [hscopes]
    exact hgone.scopes

theorem keeps_bind (name : String) (wire : WireId) : Keeps [wire] d [] (d.bind name wire) := by
  refine ⟨fun id hid => hid, fun _ other hgone hheld => ⟨?_, List.not_mem_nil⟩⟩
  refine ⟨⟨hgone.numbered.last, hgone.numbered.numbers⟩, hgone.known, hgone.gates, ?_⟩
  intro scope hscope binding hbinding
  rcases List.mem_cons.1 hscope with rfl | hscope
  · rcases Bindings.mem_insert hbinding with hbinding | rfl
    · exact hgone.scopes d.scope List.mem_cons_self binding hbinding
    · exact fun heq => hheld (List.mem_singleton.2 heq.symm)
  · exact hgone.scopes scope (List.mem_cons_of_mem _ hscope) binding hbinding

theorem keeps_newWire {desc : Option String} {wire : WireId} (h : d.newWire desc = (wire, d')) :
    Keeps [] d [wire] d' := by
  have hmem := (d.mem_ids_newWire desc).2
  have hgates : (d.newWire desc).2.gates = d.gates := rfl
  have hscopes : (d.newWire desc).2.scopes = d.scopes := rfl
  rw [h] at hmem hgates hscopes
  refine ⟨hmem, fun hsmall other hgone _ => ?_⟩
  have hids := hgone.numbered.ids_newWire desc
  have hsize : (d.newWire desc).2.wires.size < UInt32.size := by
    rw [h]
    exact hsmall
  have hnumbered := hgone.numbered.newWire hsize
  rw [h] at hids hnumbered
  have hnew : other ∉ [wire] := by
    intro hother
    have hnodup := d'.wires.nodup
    change d'.wires.ids.Nodup at hnodup
    rw [hids, List.nodup_cons] at hnodup
    exact hnodup.1 (List.mem_singleton.1 hother ▸ hgone.known)
  exact ⟨⟨hnumbered, hmem other hgone.known, hgates ▸ hgone.gates,
    hscopes ▸ hgone.scopes⟩, hnew⟩

theorem keeps_declare {name : String} {wire : WireId} (h : d.declare name = (wire, d')) :
    Keeps [] d [wire] d' := by
  obtain ⟨rfl, rfl⟩ := Prod.mk.inj h
  have hnew : Keeps [] d [(d.newWire (some (Wire.implicitDesc name))).1]
      (d.newWire (some (Wire.implicitDesc name))).2 := keeps_newWire rfl
  exact hnew.trans (keeps_bind name _).hold

/-- The wire that takes the place of another was held. -/
theorem keeps_rewire (old new : WireId) : Keeps [new] d [] (d.rewire old new) := by
  refine ⟨fun id hid => hid, fun _ wire hgone hheld => ⟨?_, List.not_mem_nil⟩⟩
  have hrewired : ∀ other : WireId, other ≠ wire → (if other = old then new else other) ≠ wire := by
    intro other hother
    split
    · exact fun heq => hheld (List.mem_singleton.2 heq.symm)
    · exact hother
  refine ⟨⟨hgone.numbered.last, hgone.numbered.numbers⟩, hgone.known, ?_, ?_⟩
  · intro gate hgate hpin
    obtain ⟨before, hbefore, other, hother, heq⟩ := exists_of_mem_gates_rewire hgate hpin
    exact hrewired other (fun hsame => hgone.gates before hbefore (hsame ▸ hother)) heq
  · intro scope hscope binding hbinding heq
    obtain ⟨before, hbefore, bound, hbound, hsame⟩ := exists_of_mem_scopes_rewire hscope hbinding
    exact hrewired bound.2 (hgone.scopes before hbefore bound hbound) (hsame.trans heq)

/-- An assignment mentions no further wire but the one that is assigned. -/
theorem keeps_assign (name : String) (wire : WireId) : Keeps [wire] d [] (d.assign name wire) := by
  unfold assign
  split
  · exact (Keeps.refl []).mono (List.nil_subset _) (List.nil_subset _)
  · split
    · exact keeps_bind name wire
    · next old hold =>
      have hnote : Keeps [] d [] (d.noteRebinding name old wire) :=
        keeps_of_scopes rfl rfl rfl fun scope hscope => ⟨scope, hscope, rfl⟩
      dsimp only
      split
      · exact hnote.mono (List.nil_subset _) (List.nil_subset _)
      · exact (hnote.frame [wire]).trans ((keeps_bind name wire).hold.trans (keeps_rewire old wire))

theorem keeps_assignAll (pairs : List (String × WireId)) :
    Keeps (pairs.map Prod.snd) d [] (d.assignAll pairs) := by
  induction pairs generalizing d with
  | nil => exact .refl []
  | cons pair pairs ih => exact (keeps_assign pair.1 pair.2).append ih

end Draft

namespace Expansion

open Draft

variable {limit : UInt64} {step : Step} {pos : Position} {d d' : Draft}

/-! ## Pieces of the expansion -/

/-- A step whose runs keep what is gone. -/
def Keeping (step : Step) : Prop :=
  ∀ ⦃node : Node⦄ ⦃rest : List Node⦄ ⦃d : Draft⦄ ⦃yield : Yield⦄ ⦃d' : Draft⦄,
    Runs (step node rest) d yield d' → Keeps [] d yield.values d'

theorem keeps_valuesEach (hstep : Keeping step) {nodes : List Node} {values : List (List WireId)}
    (h : Runs (valuesEach step nodes) d values d') : Keeps [] d values.flatten d' := by
  induction nodes generalizing d values with
  | nil =>
    obtain ⟨rfl, rfl⟩ := runs_pure.1 h
    exact .refl []
  | cons node rest ih =>
    obtain ⟨yield, between, hnode, more, hmore, rfl⟩ := runs_valuesEach_cons.1 h
    exact (hstep hnode).append (ih hmore)

/-- Parameters are bound to new wires. -/
theorem keeps_passInputs {block : Block} {count : Nat} {frame : ContextId}
    {bindings bindings' : Bindings} {passed : List ((Nat × WireId) × String)}
    (h : Runs (passInputs block count frame bindings passed) d bindings' d') :
    Keeps (passed.map (fun argument => argument.1.2) ++ bindings.map Prod.snd) d
      (bindings'.map Prod.snd) d' := by
  induction passed generalizing d bindings with
  | nil =>
    obtain ⟨rfl, rfl⟩ := runs_pure.1 h
    exact .refl _
  | cons first rest ih =>
    obtain ⟨⟨place, wire⟩, param⟩ := first
    obtain ⟨label, bound, between, hplace, h⟩ := runs_passInputs_cons h
    refine ((keeps_place hplace).append (.refl _)).trans ((ih h).mono ?_ (List.Subset.refl _))
    refine List.append_subset.2 ⟨?_, ?_⟩
    · exact fun other hother => List.mem_append_right _ (List.mem_append_left _ hother)
    · intro other hother
      obtain ⟨binding, hbinding, rfl⟩ := List.mem_map.1 hother
      rcases Bindings.mem_insert hbinding with hbinding | rfl
      · exact List.mem_append_right _ (List.mem_append_right _ (List.mem_map_of_mem hbinding))
      · exact List.mem_append_left _ List.mem_cons_self

theorem keeps_passOutputs {block : Block} {count : Nat} {frame : ContextId} {place : Nat}
    {wires outputs : List WireId}
    (h : Runs (passOutputs block count frame place wires) d outputs d') :
    Keeps wires d outputs d' := by
  induction wires generalizing d place outputs with
  | nil =>
    obtain ⟨rfl, rfl⟩ := runs_pure.1 h
    exact .refl []
  | cons wire rest ih =>
    obtain ⟨label, output, between, hplace, more, hmore, rfl⟩ := runs_passOutputs_cons h
    exact (keeps_place hplace).append (ih hmore)

theorem keeps_passed {block : Block} {count : Nat} {frame : ContextId} {node : Node}
    {wires outputs : List WireId}
    (h : node.isReturn = true ∧ Runs (passOutputs block count frame 0 wires) d outputs d' ∨
      node.isReturn = false ∧ outputs = [] ∧ d' = d) : Keeps wires d outputs d' := by
  rcases h with ⟨-, hpassed⟩ | ⟨-, rfl, rfl⟩
  · exact keeps_passOutputs hpassed
  · exact (Keeps.refl []).mono (List.nil_subset _) (List.Subset.refl _)

theorem keeps_expandBody (hstep : Keeping step) {block : Block} {count : Nat} {frame : ContextId}
    {skipped : Nat} {nodes : List Node} {outputs : List WireId}
    (h : Runs (expandBody step block count frame skipped nodes) d outputs d') :
    Keeps [] d outputs d' := by
  induction nodes generalizing d skipped outputs with
  | nil =>
    rw [expandBody] at h
    obtain ⟨rfl, rfl⟩ := runs_pure.1 h
    exact .refl []
  | cons node rest ih =>
    cases skipped with
    | succ skipped => exact ih h
    | zero =>
      obtain ⟨yield, between, hnode, values, passed, hpassed, more, hmore, rfl⟩ :=
        runs_expandBody_cons h
      exact ((hstep hnode).trans (keeps_passed hpassed)).append (ih hmore)

theorem keeps_expandAll (hstep : Keeping step) {values values' : List WireId} {skipped : Nat}
    {nodes : List Node} (h : Runs (expandAll step values skipped nodes) d values' d') :
    Keeps values d values' d' := by
  induction nodes generalizing d values skipped with
  | nil =>
    rw [expandAll] at h
    obtain ⟨rfl, rfl⟩ := runs_pure.1 h
    exact .refl _
  | cons node rest ih =>
    cases skipped with
    | succ skipped => exact ih h
    | zero =>
      obtain ⟨yield, between, hnode, h⟩ := runs_expandAll_cons h
      have hboth := (hstep hnode).frame values
      rw [List.append_nil] at hboth
      refine (hboth.mono (List.Subset.refl _) ?_).trans (ih h)
      split
      · exact List.subset_append_left _ _
      · exact List.subset_append_right _ _

namespace BlockRun

variable {name : String} {args : List Node} {outputs : List WireId}
  (run : BlockRun limit step name args d outputs d')

/-- What comes after the body mentions no wire. -/
theorem keeps_last : Keeps outputs run.inner outputs d' := by
  have hlast := (keeps_leave (d := run.inner)).trans
    (keeps_note ⟨run.frame, run.call.block, outputs⟩)
  rw [frame, ← run.hlast] at hlast
  have hframe := hlast.frame outputs
  rwa [List.append_nil] at hframe

theorem keeps_of_argued (hstep : Keeping step) :
    Keeps run.arguments.flatten run.argued outputs d' := by
  have hpassed := keeps_passInputs run.hpassed
  have hannounced := (keeps_announce (d := run.argued) run.call.block.name).frame
    run.arguments.flatten
  have hinputs : run.arguments.flatten ++ [] ⊇
      ((placed run.arguments).zip run.call.block.params).map
        (fun argument : (Nat × WireId) × String => argument.1.2) ++ [] := by
    rw [List.append_nil, List.append_nil]
    intro wire hwire
    obtain ⟨argument, hargument, rfl⟩ := List.mem_map.1 hwire
    exact mem_of_mem_placed (List.of_mem_zip hargument).1
  have hentered : Keeps (run.bindings.map Prod.snd) run.passed [] run.entered  :=
    keeps_enter ⟨run.frame, run.bindings, [], some run.call.block⟩
  have hbody : Keeps [] run.entered outputs run.inner := keeps_expandBody hstep run.hbody
  have hall := hannounced.trans ((hpassed.mono hinputs (List.Subset.refl _)).trans
    (hentered.trans (hbody.trans run.keeps_last)))
  rwa [List.append_nil] at hall

end BlockRun

/-! ## Whole expansions -/

theorem keeps_wireOf {name : String} {wire : WireId} (h : Runs (wireOf name) d wire d') :
    Keeps [] d [wire] d' := by
  rcases runs_wireOf h with ⟨hbound, rfl⟩ | ⟨-, hdeclared⟩
  · refine ⟨fun _ hid => hid, fun _ other hgone _ => ⟨hgone, fun hmem => ?_⟩⟩
    obtain ⟨scope, hscope, hfind⟩ := List.exists_of_findSome?_eq_some hbound
    exact hgone.scopes scope hscope _ (Bindings.mem_of_find? hfind)
      (List.mem_singleton.1 hmem).symm
  · exact keeps_declare hdeclared

theorem keeps_counted (node : Node) (d : Draft) : Keeps [] d [] (d.counted node) := by
  unfold counted
  split
  · split
    · next call _ hcall => exact keeps_call hcall
    · exact .refl []
  · exact .refl []

theorem Finish.keeps (hstep : Keeping step) {values : List (List WireId)} {mid : Draft}
    {node : Node} {yield : Yield} (h : Finish limit step d values mid node yield d') :
    Keeps values.flatten mid yield.values d' := by
  cases h with
  | gather => exact .refl _
  | place hplace => exact keeps_place hplace
  | define => exact (keeps_define _).mono (List.nil_subset _) (List.Subset.refl _)
  | name hwire => exact (keeps_wireOf hwire).mono (List.nil_subset _) (List.Subset.refl _)
  | assign =>
    refine (keeps_assignAll _).mono ?_ (List.Subset.refl _)
    intro wire hwire
    obtain ⟨pair, hpair, rfl⟩ := List.mem_map.1 hwire
    exact (List.of_mem_zip hpair).2
  | invoke hname run harguments hargued =>
    subst harguments hargued
    exact run.keeps_of_argued hstep

theorem keeping_expandNode (hstep : Keeping step) : Keeping (expandNode limit step) := by
  intro node rest d yield d' h
  obtain ⟨values, mid, hvalues, hfinish⟩ := exists_finish h
  exact (keeps_counted node d).trans ((keeps_valuesEach hstep hvalues).trans (hfinish.keeps hstep))

theorem keeping_step (limit : UInt64) (fuel : Nat) : Keeping (Expansion.step limit fuel) := by
  induction fuel with
  | zero => exact fun _ _ _ _ _ h => absurd h runs_throw
  | succ fuel ih => exact keeping_expandNode ih

/-! ## Turns -/

/-- What the turn of a statement makes gone is gone after the body. -/
theorem keeps_of_arrives {fuel : Nat} {block : Block} {count : Nat} {frame : ContextId}
    {nodes rest : List Node} {outputs : List WireId} {node : Node} {yield : Yield}
    {before after : Draft} (harrives : Arrives (Expansion.step limit fuel) nodes d node rest before)
    (hnode : Runs (Expansion.step limit fuel node rest) before yield after)
    (h : Runs (expandBody (Expansion.step limit fuel) block count frame 0 nodes) d outputs d') :
    Keeps yield.values after outputs d' := by
  induction harrives generalizing outputs with
  | here =>
    obtain ⟨yield', between, hnode', values, passed, hpassed, more, hmore, rfl⟩ :=
      runs_expandBody_cons h
    obtain ⟨rfl, rfl⟩ := hnode.unique hnode'
    have hrest := (keeps_passed hpassed).append (keeps_expandBody (keeping_step limit fuel) hmore)
    rwa [List.append_nil] at hrest
  | next hfirst harrives ih =>
    obtain ⟨yield', between, hfirst', values, passed, hpassed, more, hmore, rfl⟩ :=
      runs_expandBody_cons h
    obtain ⟨rfl, rfl⟩ := hfirst.unique hfirst'
    rcases hpassed with ⟨hreturn, -⟩ | ⟨-, rfl, rfl⟩
    · -- a return leaves no statement to come to
      rw [taken_of_isReturn hreturn hfirst, Nat.add_sub_cancel_left, List.drop_length] at harrives
      exact absurd harrives nofun
    · rw [expandBody_eq_drop] at hmore
      exact ih hnode hmore

/-- What the turn of a node of a description makes gone is gone at the end.  A comment
would let the values of the node before it pass. -/
theorem keeps_of_arrives_all {fuel : Nat} {nodes rest : List Node} {values values' : List WireId}
    {node : Node} {yield : Yield} {before after : Draft}
    (harrives : Arrives (Expansion.step limit fuel) nodes d node rest before)
    (hnode : Runs (Expansion.step limit fuel node rest) before yield after)
    (hcomment : node.isComment = false)
    (h : Runs (expandAll (Expansion.step limit fuel) values 0 nodes) d values' d') :
    Keeps yield.values after values' d' := by
  induction harrives generalizing values with
  | here =>
    obtain ⟨yield', between, hnode', h⟩ := runs_expandAll_cons h
    obtain ⟨rfl, rfl⟩ := hnode.unique hnode'
    rw [hcomment] at h
    exact keeps_expandAll (keeping_step limit fuel) h
  | next hfirst _ ih =>
    obtain ⟨yield', between, hfirst', h⟩ := runs_expandAll_cons h
    obtain ⟨rfl, rfl⟩ := hfirst.unique hfirst'
    rw [expandAll_eq_drop] at h
    exact ih hnode hcomment h

namespace Turn

variable {t u : Turn limit} {held : List WireId}

theorem Holds.keeps (h : Holds t held u) :
    Keeps (held ++ u.yield.values) u.after t.yield.values t.after := by
  cases h with
  | @part _ front back values hfuel hrest hparts hvalues =>
    obtain ⟨fuel, node, rest, before, yield, after, hruns⟩ := t
    obtain rfl : fuel = u.fuel + 1 := hfuel
    obtain ⟨all, mid, hall, hfinish⟩ := exists_finish hruns
    have hstep := keeping_step limit u.fuel
    dsimp only at hparts
    rw [hparts] at hall
    obtain ⟨first, between, more, hfirst, hmore, rfl⟩ := runs_valuesEach_append hall
    obtain ⟨rfl, rfl⟩ := hvalues.unique hfirst
    obtain ⟨yield', between', hnode, last, hlast, rfl⟩ := runs_valuesEach_cons.1 hmore
    obtain ⟨rfl, rfl⟩ := (hrest ▸ u.runs).unique hnode
    have hrest' := (keeps_valuesEach hstep hlast).frame (values.flatten ++ u.yield.values)
    have hdone := hfinish.keeps hstep
    rw [List.flatten_append, List.flatten_cons, ← List.append_assoc] at hdone
    rw [List.append_nil] at hrest'
    exact hrest'.trans hdone
  | body hfuel hnode run harrives =>
    exact (keeps_of_arrives harrives u.runs run.hbody).trans run.keeps_last

/-- What is gone after a turn inside another, and not held meanwhile, is gone after the
other. -/
theorem Inside.keeps (h : Inside t held u) :
    Keeps (held ++ u.yield.values) u.after t.yield.values t.after := by
  induction h with
  | here => exact .refl _
  | @within _ _ _ held more hholds _ ih =>
    have hinner := ih.frame held
    rw [← List.append_assoc] at hinner
    exact hinner.trans hholds.keeps

end Turn

end Expansion

end Gatework
