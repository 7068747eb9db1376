import Gatework.Proofs.Expansion.Numbering
import Gatework.Proofs.Expansion.Trace
import Gatework.Proofs.Netlist.Linking

/-!
# Well-formed netlists

The netlist of a description is well formed, whatever tree it comes from: wires
and gates are numbered from one on, what the gates mention is there, and every
gate has the pins of its kind.

There are five groups.

* `Netlist.WellFormed` is the property.
* What a change does to the gates (`Change.gates_cases`) and to the numbers of
  the open scopes (`Change.ids_scopes_cases`).
* `Draft.Formed` is what the changes keep of the gates and scopes.
* `Draft.GatesNumbered` says that the gates are numbered in order.
* `wellFormed_ofForest` is the result for netlists of descriptions.
-/

namespace Gatework

/-! ## The property -/

namespace Netlist

/-- The wires that the gates and the outputs mention. -/
def mentioned (n : Netlist) : List WireId :=
  n.gates.flatMap (fun gate => gate.inputs ++ gate.outputs) ++ n.outputs

/-- A netlist whose parts are numbered from one on, and fit together. -/
structure WellFormed (n : Netlist) : Prop where
  wires : n.wires.wires.map (fun wire => wire.id.number.toNat) = List.range' 1 n.wires.size
  gates : n.gates.map (fun gate => gate.id.number.toNat) = List.range' 1 n.gates.length
  mentioned : ∀ wire ∈ n.mentioned,
    1 ≤ wire.number.toNat ∧ wire.number.toNat ≤ n.wires.size
  contexts : ∀ gate ∈ n.gates,
    gate.context = .root ∨ ∃ context ∈ n.contexts, context.id = gate.context
  states : ∀ gate ∈ n.gates, gate.state = ""
  pins : ∀ gate ∈ n.gates,
    gate.kind.Fits gate.label gate.inputs.length gate.outputs.length

end Netlist

namespace Draft

variable {q : Node → Bool} {limit : UInt64} {d d' : Draft}

/-! ## Gates and scopes after a change -/

/-- Whether a context is the description itself or an invocation that has been
noted. -/
def Places (id : ContextId) (d : Draft) : Prop := id = .root ∨ d.Knows id

theorem Change.places (h : Change q limit d d') {id : ContextId} (hid : d.Places id) :
    d'.Places id :=
  hid.imp_right (Reaches.step h).knows

/-- What a gate of a draft satisfies. -/
structure Fitting (d : Draft) (gate : Gate) : Prop where
  pins : gate.kind.Fits gate.label gate.inputs.length gate.outputs.length
  mentioned : ∀ wire ∈ gate.inputs ++ gate.outputs, wire ∈ d.wires.ids
  context : d.Places gate.context
  state : gate.state = ""

theorem Fitting.after {gate : Gate} (hgate : d.Fitting gate) (h : Change q limit d d') :
    d'.Fitting gate where
  pins := hgate.pins
  mentioned := fun wire hwire => h.mem_ids wire (hgate.mentioned wire hwire)
  context := h.places hgate.context
  state := hgate.state

/-- Rewiring keeps the number of pins. -/
theorem Fitting.rewire {gate : Gate} (hgate : d.Fitting gate) (old : WireId) {new : WireId}
    (hnew : new ∈ d.wires.ids) : d.Fitting (gate.rewire old new) where
  pins := by
    simp only [Gate.rewire, List.length_map]
    exact hgate.pins
  mentioned := by
    intro wire hwire
    simp only [Gate.rewire, ← List.map_append] at hwire
    obtain ⟨before, hbefore, rfl⟩ := List.mem_map.1 hwire
    split
    · exact hnew
    · exact hgate.mentioned before hbefore
  context := hgate.context
  state := hgate.state

theorem length_newWires (count : Nat) (d : Draft) : (d.newWires count).1.length = count := by
  induction count generalizing d with
  | zero => rfl
  | succ count ih => exact congrArg (· + 1) (ih (d.newWire none).2)

/-- An assignment does nothing to the gates, or rewires all of them. -/
theorem gates_assign (name : String) (wire : WireId) (d : Draft) :
    (d.assign name wire).lastGate = d.lastGate ∧
      ((d.assign name wire).gates = d.gates ∨
        ∃ old, (d.assign name wire).gates = d.gates.map (Gate.rewire old wire)) := by
  unfold assign
  split
  · exact ⟨rfl, Or.inl rfl⟩
  · split
    · exact ⟨rfl, Or.inl rfl⟩
    · next old hold =>
      dsimp only
      split
      · exact ⟨rfl, Or.inl rfl⟩
      · exact ⟨rfl, Or.inr ⟨old, rfl⟩⟩

/-- A change adds a gate that fits, or rewires the gates, or leaves them alone. -/
theorem Change.gates_cases (h : Change q limit d d') (hscope : d.Places d.scope.id) :
    d'.lastGate = d.lastGate ∧ (d'.gates = d.gates ∨
        ∃ old, ∃ new ∈ d.wires.ids, d'.gates = d.gates.map (Gate.rewire old new)) ∨
      ∃ gate, d'.gates = gate :: d.gates ∧ gate.id = ⟨d.lastGate + 1⟩ ∧
        d'.lastGate = d.lastGate + 1 ∧ d'.Fitting gate := by
  have hchange := h
  cases h with
  | @place kind label inputs count context hinputs hfits hcontext =>
    obtain ⟨hgates, hlast⟩ := gates_place kind label inputs count context d
    refine Or.inr ⟨_, hgates, rfl, hlast, ?_, ?_, ?_, rfl⟩
    · have hlength : (d.place kind label inputs count context).1.length = count :=
        length_newWires count d
      rw [hlength]
      exact hfits
    · intro wire hwire
      rcases List.mem_append.1 hwire with hwire | hwire
      · exact hchange.mem_ids wire (hinputs wire hwire)
      · exact (mem_ids_place kind label inputs count context d).1 wire hwire
    · rcases hcontext with rfl | hknown
      · exact hchange.places hscope
      · exact hchange.places (Or.inr hknown)
  | @assign name wire hwire =>
    obtain ⟨hlast, hsame | ⟨old, hrewired⟩⟩ := gates_assign name wire d
    · exact Or.inl ⟨hlast, Or.inl hsame⟩
    · exact Or.inl ⟨hlast, Or.inr ⟨old, wire, hwire, hrewired⟩⟩
  | call hcall =>
    obtain ⟨scope, outer, heq, -⟩ := call?_eq_some hcall
    rw [heq]
    exact Or.inl ⟨rfl, Or.inl rfl⟩
  | leave =>
    obtain ⟨scope, outer, heq⟩ := d.leave_eq
    rw [heq]
    exact Or.inl ⟨rfl, Or.inl rfl⟩
  | declare | define | announce | enter | note => exact Or.inl ⟨rfl, Or.inl rfl⟩

/-- An assignment keeps the numbers of the open scopes. -/
theorem scopes_assign (name : String) (wire : WireId) (d : Draft) :
    (d.assign name wire).scopes.map Scope.id = d.scopes.map Scope.id :=
  map_scopes_assign (fun _ _ _ => rfl) (fun _ _ _ => rfl) name wire d

/-- After a change the same scopes are open, or all but the innermost ones, or a scope of
a noted invocation has been opened inside them. -/
theorem Change.ids_scopes_cases (h : Change q limit d d') :
    d'.scopes.map Scope.id <:+ d.scopes.map Scope.id ∨
      ∃ context ∈ d.contexts, context.depth = d.scopes.length ∧
        d'.scopes.map Scope.id = context.id :: d.scopes.map Scope.id := by
  have hkept (hids : d'.scopes.map Scope.id = d.scopes.map Scope.id) :
      d'.scopes.map Scope.id <:+ d.scopes.map Scope.id ∨
        ∃ context ∈ d.contexts, context.depth = d.scopes.length ∧
          d'.scopes.map Scope.id = context.id :: d.scopes.map Scope.id :=
    Or.inl (hids ▸ List.suffix_refl _)
  cases h with
  | place =>
    obtain ⟨_, _, _, _, heq⟩ := place_eq _ _ _ _ _ d
    exact hkept (by rw [heq]; rfl)
  | assign => exact hkept (scopes_assign _ _ d)
  | call hcall =>
    obtain ⟨scope, outer, heq, hscopes, -⟩ := call?_eq_some hcall
    have hids := congrArg (List.map Scope.id) hscopes
    rw [List.map_map, List.map_map] at hids
    refine hkept ?_
    rw [heq]
    exact hids
  | enter hcontext => exact Or.inr ⟨_, hcontext, rfl, rfl⟩
  | leave =>
    unfold Draft.leave
    split
    · exact Or.inl (List.suffix_refl _)
    · next scope outer houter =>
      left
      rw [scopes.eq_1 d, houter]
      exact List.suffix_cons ..
  | declare | define | announce | note => exact hkept rfl

/-- A scope of a changed draft was open before, or it is that of an invocation. -/
theorem Change.scopes_cases (h : Change q limit d d') :
    ∀ scope ∈ d'.scopes, scope.id ∈ d.scopes.map Scope.id ∨ d'.Knows scope.id := by
  intro scope hscope
  have hid : scope.id ∈ d'.scopes.map Scope.id := List.mem_map_of_mem hscope
  rcases h.ids_scopes_cases with hsuffix | ⟨context, hcontext, -, hids⟩
  · exact Or.inl (hsuffix.subset hid)
  · rw [hids] at hid
    rcases List.mem_cons.1 hid with heq | hold
    · exact Or.inr ⟨context, h.mem_contexts context hcontext, heq.symm⟩
    · exact Or.inl hold

/-! ## Formed drafts -/

/-- A draft whose gates and scopes fit. -/
structure Formed (d : Draft) : Prop where
  gates : ∀ gate ∈ d.gates, d.Fitting gate
  scopes : ∀ scope ∈ d.scopes, d.Places scope.id

theorem formed_empty : Formed empty where
  gates := fun _ hgate => absurd hgate List.not_mem_nil
  scopes := fun scope hscope => Or.inl (by rw [List.mem_singleton.1 hscope]; rfl)

theorem Change.formed (h : Change q limit d d') (hd : d.Formed) : d'.Formed where
  gates := by
    have hkept : ∀ gate ∈ d.gates, d'.Fitting gate := fun gate hgate =>
      (hd.gates gate hgate).after h
    rcases h.gates_cases (hd.scopes d.scope List.mem_cons_self) with
      ⟨-, hgates | ⟨old, new, hnew, hgates⟩⟩ | ⟨added, hgates, -, -, hadded⟩
    · rw [hgates]
      exact hkept
    · rw [hgates]
      intro gate hgate
      obtain ⟨before, hbefore, rfl⟩ := List.mem_map.1 hgate
      exact (hkept before hbefore).rewire old (h.mem_ids new hnew)
    · rw [hgates]
      intro gate hgate
      rcases List.mem_cons.1 hgate with rfl | hgate
      · exact hadded
      · exact hkept gate hgate
  scopes := by
    intro scope hscope
    rcases h.scopes_cases scope hscope with hold | hknown
    · obtain ⟨before, hbefore, hid⟩ := List.mem_map.1 hold
      rw [← hid]
      exact h.places (hd.scopes before hbefore)
    · exact Or.inr hknown

theorem Reaches.formed (h : Reaches q limit empty d) : d.Formed := by
  induction h with
  | refl => exact formed_empty
  | tail _ hchange ih => exact hchange.formed ih

/-! ## The numbers of gates -/

/-- A draft whose gates have the numbers from one on, the latest gate the last
number. -/
structure GatesNumbered (d : Draft) : Prop where
  last : d.lastGate.toNat = d.gates.length
  numbers : d.gates.map (fun gate => gate.id.number.toNat) =
    (List.range' 1 d.gates.length).reverse

theorem gatesNumbered_empty : GatesNumbered empty := ⟨rfl, rfl⟩

theorem Change.length_gates_le (h : Change q limit d d') (hd : d.Formed) :
    d.gates.length ≤ d'.gates.length := by
  rcases h.gates_cases (hd.scopes d.scope List.mem_cons_self) with
    ⟨-, hgates | ⟨old, new, -, hgates⟩⟩ | ⟨added, hgates, -⟩
  · exact Nat.le_of_eq (congrArg List.length hgates).symm
  · exact Nat.le_of_eq (by rw [hgates, List.length_map])
  · rw [hgates, List.length_cons]
    omega

theorem Change.gatesNumbered (h : Change q limit d d') (hd : d.Formed) (hn : d.GatesNumbered)
    (hsmall : d'.gates.length < UInt32.size) : d'.GatesNumbered := by
  rcases h.gates_cases (hd.scopes d.scope List.mem_cons_self) with
    ⟨hlast, hgates | ⟨old, new, -, hgates⟩⟩ | ⟨added, hgates, hid, hlast, -⟩
  · exact ⟨by rw [hlast, hgates, hn.last], by rw [hgates, hn.numbers]⟩
  · refine ⟨by rw [hlast, hgates, List.length_map, hn.last], ?_⟩
    rw [hgates, List.map_map, List.length_map, ← hn.numbers]
    rfl
  · rw [hgates, List.length_cons] at hsmall
    obtain ⟨hnumber, hnumbers⟩ := numbers_next hn.last hsmall
    constructor
    · rw [hlast, hgates, List.length_cons, hnumber]
    · rw [hgates, List.map_cons, hid, hn.numbers, List.length_cons]
      exact hnumbers

theorem Reaches.gatesNumbered (h : Reaches q limit empty d)
    (hsmall : d.gates.length < UInt32.size) : d.GatesNumbered := by
  induction h with
  | refl => exact gatesNumbered_empty
  | tail hbefore hchange ih =>
    have hformed := Reaches.formed hbefore
    have hle := hchange.length_gates_le hformed
    exact hchange.gatesNumbered hformed (ih (by omega)) hsmall

end Draft

/-! ## Netlists of descriptions -/

namespace Netlist

/-- With fewer wires and gates than numbers, the netlist of a description is well
formed. -/
theorem wellFormed_ofForest {limit : UInt64} {nodes : List Node} {n : Netlist}
    (h : ofForest limit nodes = .ok n) (hwires : n.wires.size < UInt32.size)
    (hgates : n.gates.length < UInt32.size) : n.WellFormed := by
  obtain ⟨outputs, d, hd, rfl⟩ := eq_linkContexts_of_ofForest h
  have hleads := Draft.leads_ofForest (Node.allIn_true nodes) hd
  have hgates' : d.gates.length < UInt32.size := by
    rw [← List.length_reverse]
    exact hgates
  have hnumbered : d.Numbered := hleads.reaches.numbered hwires
  have hformed := hleads.reaches.formed
  have hfits : ∀ gate ∈ d.gates.reverse, d.Fitting gate := fun gate hgate =>
    hformed.gates gate (List.mem_reverse.1 hgate)
  constructor
  · have hnumbers := congrArg List.reverse hnumbered.numbers
    rw [Arena.ids, List.map_map, ← List.map_reverse, List.reverse_reverse] at hnumbers
    exact hnumbers
  · have hnumbers := congrArg List.reverse (hleads.reaches.gatesNumbered hgates').numbers
    rw [← List.map_reverse, List.reverse_reverse, ← List.length_reverse] at hnumbers
    exact hnumbers
  · intro wire hwire
    refine hnumbered.number_le ?_
    rcases List.mem_append.1 hwire with hwire | hwire
    · obtain ⟨gate, hgate, hmem⟩ := List.mem_flatMap.1 hwire
      exact (hfits gate hgate).mentioned wire hmem
    · exact hleads.mem wire hwire
  · intro gate hgate
    refine (hfits gate hgate).context.imp_right ?_
    rintro ⟨known, hknown, hid⟩
    have hmem : known.id ∈ ({ d.netlist with outputs }.linkContexts).contexts.map Context.id := by
      rw [map_id_linkContexts]
      exact List.mem_map_of_mem (List.mem_reverse.2 hknown)
    obtain ⟨context, hcontext, heq⟩ := List.mem_map.1 hmem
    exact ⟨context, hcontext, heq.trans hid⟩
  · exact fun gate hgate => (hfits gate hgate).state
  · exact fun gate hgate => (hfits gate hgate).pins

/-- A block that feeds a name back into itself, and a component that the block
clocks. -/
def latched : List Node :=
  let pos := Position.start
  let name := Node.identifier pos
  [.block pos "hold" ["set"] 1
      [.assignment pos ["q"], .group pos [.binary pos .disj (name "set") (some (name "q"))],
        .returns pos, name "q"],
    .assignment pos ["bit", "_"],
    .invocation pos "tflipflop" [.invocation pos "hold" [name "x"], .literal pos true],
    .negation pos (some (name "bit"))]

/-- Six gates on nine wires, of which the rebound one is left without a gate. -/
theorem wellFormed_latched : ∃ n, ofForest 2 latched = .ok n ∧
    n.wires.size = 9 ∧ n.gates.length = 6 ∧ n.WellFormed := by
  have hbuilt : (ofForest 2 latched).toOption.map
      (fun n => (n.wires.size, n.gates.length)) = some (9, 6) := by decide +kernel
  cases hn : ofForest 2 latched with
  | error halt =>
    rw [hn] at hbuilt
    exact absurd hbuilt nofun
  | ok n =>
    rw [hn] at hbuilt
    obtain ⟨hwires, hgates⟩ := Prod.mk.inj (Option.some.inj hbuilt)
    have hsmall : n.wires.size < UInt32.size ∧ n.gates.length < UInt32.size := by
      rw [hwires, hgates]
      decide
    exact ⟨n, rfl, hwires, hgates, wellFormed_ofForest hn hsmall.1 hsmall.2⟩

end Netlist

end Gatework
