import Gatework.Proofs.Expansion.Numbering
import Gatework.Proofs.Expansion.Trace
import Gatework.Proofs.Simulation.Acyclic

/-!
# The drivers of wires

A wire of a description comes with the gate that drives it, or it is declared for a name
that is not bound.  Only an assignment that rebinds a name can give a wire another driver,
or make a gate read what a later one drives.

There are five groups.

* What a rebinding does to the gates (`Draft.Rewired`).  The rebindings that a draft has
  noted are the earliest ones of every later draft.
* `Draft.Accounted`: there are as many wires as outputs of gates and declared wires
  together.  Rewiring renames outputs, and does not change their number.
* `Draft.Ordered`: every gate drives later wires than the gates before it, as long as no
  rewiring takes a driven wire out of use.
* `Draft.Fed`: gates read what is declared or driven before them, as long as nothing is
  rewired at all.
* `drivers_ofForest` is the result for netlists of descriptions.
-/

namespace Gatework

namespace Draft

variable {q : Node → Bool} {limit : UInt64} {d d' : Draft}

/-! ## Assignments and the circuit -/

/-- A draft after a rebinding: its wire takes the place of the old one in all gates. -/
structure Rewired (r : Rebinding) (d d' : Draft) : Prop where
  undriven : r.driven = false → ∀ gate ∈ d.gates, r.old ∉ gate.outputs
  rebindings : d'.rebindings = r :: d.rebindings
  wires : d'.wires = d.wires
  gates : d'.gates = if r.old = r.new then d.gates else d.gates.map (Gate.rewire r.old r.new)

theorem rewired_assign (name : String) (wire : WireId) (d : Draft) :
    (∃ r, Rewired r d (d.assign name wire)) ∨ SameCircuit d (d.assign name wire) := by
  unfold assign
  split
  · exact Or.inr ⟨rfl, rfl, rfl, rfl⟩
  · split
    · exact Or.inr ⟨rfl, rfl, rfl, rfl⟩
    · next old hold =>
      refine Or.inl ⟨⟨name, old, wire, d.gates.any fun gate => gate.outputs.contains old⟩, ?_⟩
      have hundriven : (d.gates.any fun gate => gate.outputs.contains old) = false →
          ∀ gate ∈ d.gates, old ∉ gate.outputs := by
        intro hnone gate hgate hout
        exact List.any_eq_false.1 hnone gate hgate (List.contains_iff_mem.2 hout)
      dsimp only
      split
      · next heq => exact ⟨hundriven, rfl, rfl, (if_pos heq).symm⟩
      · next hne => exact ⟨hundriven, rfl, rfl, (if_neg hne).symm⟩

/-- The changes that matter to the drivers of wires are new gates, new names and
rebindings. -/
theorem Change.driver_cases (h : Change q limit d d') :
    (∃ kind label inputs count context, (∀ wire ∈ inputs, wire ∈ d.wires.ids) ∧
        d' = (d.place kind label inputs count context).2) ∨
      (∃ name, d' = (d.declare name).2) ∨ (∃ r, Rewired r d d') ∨ SameCircuit d d' := by
  rcases h.circuit_cases with hplace | hdeclare | ⟨name, wire, -, rfl⟩ | hsame
  · exact Or.inl hplace
  · exact Or.inr (Or.inl hdeclare)
  · exact Or.inr (Or.inr (rewired_assign name wire d))
  · exact Or.inr (Or.inr (Or.inr hsame))

/-- Rebindings are noted in front of earlier ones. -/
theorem Change.rebindings_suffix (h : Change q limit d d') : d.rebindings <:+ d'.rebindings := by
  rcases h.driver_cases with ⟨_, _, _, _, _, -, rfl⟩ | ⟨_, rfl⟩ | ⟨r, hr⟩ | hsame
  · obtain ⟨_, _, _, _, heq⟩ := place_eq _ _ _ _ _ d
    rw [heq]
  · exact List.suffix_refl _
  · rw [hr.rebindings]
    exact List.suffix_cons _ _
  · rw [hsame.rebindings]

/-- The gates that are rewired from a wire that none of them drives drive what they drove. -/
theorem outputs_rewire_of_not_mem {gate : Gate} {old new : WireId} (h : old ∉ gate.outputs) :
    (gate.rewire old new).outputs = gate.outputs := by
  refine (List.map_congr_left fun wire hwire => if_neg ?_).trans (List.map_id _)
  rintro rfl
  exact h hwire

/-! ## The number of wires -/

/-- A draft with as many wires as outputs of gates and declared wires together. -/
def Accounted (d : Draft) : Prop :=
  (d.gates.flatMap Gate.outputs).length + d.wires.declared.length = d.wires.size

theorem length_outputs_rewire (old new : WireId) (gates : List Gate) :
    ((gates.map (Gate.rewire old new)).flatMap Gate.outputs).length =
      (gates.flatMap Gate.outputs).length := by
  induction gates with
  | nil => rfl
  | cons gate gates ih =>
    rw [List.map_cons, List.flatMap_cons, List.flatMap_cons, List.length_append,
      List.length_append, ih]
    exact congrArg (· + _) (List.length_map _)

theorem Change.accounted (h : Change q limit d d') (hd : d.Numbered) (hsum : d.Accounted)
    (hsmall : d'.wires.size < UInt32.size) : d'.Accounted := by
  rw [Accounted, ← Arena.length_ids] at hsum
  rw [Accounted, ← Arena.length_ids]
  rcases h.driver_cases with ⟨kind, label, inputs, count, context, -, rfl⟩ | ⟨name, rfl⟩ |
    ⟨r, hr⟩ | hsame
  · obtain ⟨-, hids, hdeclared⟩ := hd.place hsmall
    rw [(gates_place kind label inputs count context d).1, hids, hdeclared, List.flatMap_cons,
      List.length_append, List.length_append, List.length_reverse, Nat.add_assoc, hsum]
  · have hids : (d.declare name).2.wires.ids = _ := hd.ids_newWire _
    have hdeclared : (d.declare name).2.wires.declared = _ := hd.declared_newWire _
    rw [hids, hdeclared, List.length_append, List.length_cons]
    exact congrArg (· + 1) hsum
  · rw [hr.wires, hr.gates, ← hsum]
    split
    · rfl
    · rw [length_outputs_rewire]
  · rw [hsame.gates, hsame.wires, hsum]

theorem Reaches.accounted (h : Reaches q limit empty d) (hsmall : d.wires.size < UInt32.size) :
    d.Accounted := by
  induction h with
  | refl => rfl
  | tail hbefore hchange ih =>
    have hsize := Nat.lt_of_le_of_lt (Reaches.step hchange).size_le hsmall
    exact hchange.accounted (Reaches.numbered hbefore hsize) (ih hsize) hsmall

/-! ## The order of outputs -/

/-- A draft whose gates drive later wires than the gates before them, and no declared
wires. -/
structure Ordered (d : Draft) : Prop where
  ordered : (d.gates.reverse.flatMap Gate.outputs).Pairwise (· < ·)
  driven : ∀ gate ∈ d.gates, ∀ output ∈ gate.outputs,
    output ∈ d.wires.ids ∧ output ∉ d.wires.declared

theorem ordered_empty : Ordered empty where
  ordered := List.Pairwise.nil
  driven := fun _ hgate => absurd hgate List.not_mem_nil

/-- Latest wires come first in an arena. -/
theorem Numbered.sorted (h : d.Numbered) : d.wires.ids.Pairwise fun later earlier =>
    earlier < later := by
  have hsorted : (d.wires.ids.map fun id => id.number.toNat).Pairwise (· > ·) := by
    rw [h.numbers, List.pairwise_reverse]
    exact List.pairwise_lt_range' ..
  exact (List.pairwise_map.1 hsorted).imp UInt32.lt_iff_toNat_lt.2

/-- A new gate drives the latest wires. -/
theorem Ordered.place {kind : GateKind} {label : String} {inputs : List WireId} {count : Nat}
    {context : ContextId} (h : d.Ordered) (hd : d.Numbered)
    (hsmall : (d.place kind label inputs count context).2.wires.size < UInt32.size) :
    (d.place kind label inputs count context).2.Ordered := by
  obtain ⟨hnumbered, hids, hdeclared⟩ := hd.place hsmall
  have hgates := (gates_place kind label inputs count context d).1
  have hsorted := hnumbered.sorted
  rw [hids, List.pairwise_append, List.pairwise_reverse] at hsorted
  obtain ⟨hnew, -, hlater⟩ := hsorted
  constructor
  · rw [hgates, List.reverse_cons, List.flatMap_append, List.flatMap_singleton,
      List.pairwise_append]
    refine ⟨h.ordered, hnew, fun before hbefore output houtput => ?_⟩
    obtain ⟨gate, hgate, hout⟩ := List.mem_flatMap.1 hbefore
    have hknown := (h.driven gate (List.mem_reverse.1 hgate) before hout).1
    exact hlater output (List.mem_reverse.2 houtput) before hknown
  · rw [hgates, hids, hdeclared]
    intro gate hgate output houtput
    rcases List.mem_cons.1 hgate with rfl | hgate
    · refine ⟨List.mem_append_left _ (List.mem_reverse.2 houtput), fun hmem => ?_⟩
      have hlt := hlater output (List.mem_reverse.2 houtput) output
        (Arena.mem_ids_of_mem_declared hmem)
      exact UInt32.lt_irrefl _ hlt
    · obtain ⟨hmem, hnot⟩ := h.driven gate hgate output houtput
      exact ⟨List.mem_append_right _ hmem, hnot⟩

/-- A new name takes a wire that no gate drives. -/
theorem Ordered.declare {name : String} (h : d.Ordered) (hd : d.Numbered) :
    (d.declare name).2.Ordered := by
  have hids : (d.declare name).2.wires.ids = _ := hd.ids_newWire _
  have hdeclared : (d.declare name).2.wires.declared = _ := hd.declared_newWire _
  refine ⟨h.ordered, ?_⟩
  rw [hids, hdeclared]
  intro gate hgate output houtput
  obtain ⟨hmem, hnot⟩ := h.driven gate hgate output houtput
  refine ⟨List.mem_cons_of_mem _ hmem, fun hdecl => ?_⟩
  rcases List.mem_append.1 hdecl with hdecl | hdecl
  · exact hnot hdecl
  · have hfresh := Arena.find?_eq_none.1 hd.find?_next
    rw [List.mem_singleton.1 hdecl] at hmem
    exact hfresh hmem

theorem Change.ordered (h : Change q limit d d') (hd : d.Numbered) (ho : d.Ordered)
    (hsmall : d'.wires.size < UInt32.size)
    (hspares : ∀ r ∈ d'.rebindings, r.old ≠ r.new → r.driven = false) : d'.Ordered := by
  rcases h.driver_cases with ⟨kind, label, inputs, count, context, -, rfl⟩ | ⟨name, rfl⟩ |
    ⟨r, hr⟩ | hsame
  · exact ho.place hd hsmall
  · exact ho.declare hd
  · have hnoted : r ∈ d'.rebindings := hr.rebindings ▸ List.mem_cons_self
    -- The rewired gates drive what they drove.
    have hkept : ∃ f : Gate → Gate, d'.gates = d.gates.map f ∧
        ∀ gate ∈ d.gates, (f gate).outputs = gate.outputs := by
      by_cases heq : r.old = r.new
      · exact ⟨id, by rw [hr.gates, if_pos heq, List.map_id], fun _ _ => rfl⟩
      · refine ⟨Gate.rewire r.old r.new, by rw [hr.gates, if_neg heq], fun gate hgate => ?_⟩
        exact outputs_rewire_of_not_mem (hr.undriven (hspares r hnoted heq) gate hgate)
    obtain ⟨f, hf, houtputs⟩ := hkept
    constructor
    · have hall := List.flatMap_congr fun gate hgate => houtputs gate (List.mem_reverse.1 hgate)
      rw [hf, ← List.map_reverse, List.flatMap_map, hall]
      exact ho.ordered
    · rw [hf, hr.wires]
      intro gate hgate output houtput
      obtain ⟨before, hbefore, rfl⟩ := List.mem_map.1 hgate
      rw [houtputs before hbefore] at houtput
      exact ho.driven before hbefore output houtput
  · constructor
    · rw [hsame.gates]
      exact ho.ordered
    · rw [hsame.gates, hsame.wires]
      exact ho.driven

theorem Reaches.ordered (h : Reaches q limit empty d) (hsmall : d.wires.size < UInt32.size)
    (hspares : ∀ r ∈ d.rebindings, r.old ≠ r.new → r.driven = false) : d.Ordered := by
  induction h with
  | refl => exact ordered_empty
  | tail hbefore hchange ih =>
    have hsize := Nat.lt_of_le_of_lt (Reaches.step hchange).size_le hsmall
    have hearlier := fun r hr => hspares r (hchange.rebindings_suffix.subset hr)
    exact hchange.ordered (Reaches.numbered hbefore hsize) (ih hsize hearlier) hsmall hspares

/-! ## What gates read -/

/-- A draft whose gates read what is declared or driven before them.  Every wire of it is
declared or driven. -/
structure Fed (d : Draft) : Prop where
  inputs : ∀ gate earlier, gate :: earlier <:+ d.gates → ∀ input ∈ gate.inputs,
    input ∈ d.wires.declared ∨ ∃ source ∈ earlier, input ∈ source.outputs
  wires : ∀ id ∈ d.wires.ids, id ∈ d.wires.declared ∨ ∃ source ∈ d.gates, id ∈ source.outputs

theorem fed_empty : Fed empty where
  inputs := fun _ _ hsuffix => absurd (List.suffix_nil.1 hsuffix) nofun
  wires := fun _ hid => absurd hid List.not_mem_nil

theorem Change.fed (h : Change q limit d d') (hd : d.Numbered) (hf : d.Fed)
    (hsmall : d'.wires.size < UInt32.size) (hkept : ∀ r ∈ d'.rebindings, r.old = r.new) :
    d'.Fed := by
  rcases h.driver_cases with ⟨kind, label, inputs, count, context, hinputs, rfl⟩ |
    ⟨name, rfl⟩ | ⟨r, hr⟩ | hsame
  · obtain ⟨-, hids, hdeclared⟩ := hd.place hsmall
    have hgates := (gates_place kind label inputs count context d).1
    constructor
    · rw [hgates, hdeclared]
      intro gate earlier hsuffix input hinput
      rcases List.suffix_cons_iff.1 hsuffix with heq | hsuffix
      · cases heq
        exact hf.wires input (hinputs input hinput)
      · exact hf.inputs gate earlier hsuffix input hinput
    · rw [hgates, hids, hdeclared]
      intro id hid
      rcases List.mem_append.1 hid with hid | hid
      · exact Or.inr ⟨_, List.mem_cons_self, List.mem_reverse.1 hid⟩
      · refine (hf.wires id hid).imp_right ?_
        rintro ⟨source, hsource, hout⟩
        exact ⟨source, List.mem_cons_of_mem _ hsource, hout⟩
  · have hids : (d.declare name).2.wires.ids = _ := hd.ids_newWire _
    have hdeclared : (d.declare name).2.wires.declared = _ := hd.declared_newWire _
    constructor
    · rw [hdeclared]
      intro gate earlier hsuffix input hinput
      exact (hf.inputs gate earlier hsuffix input hinput).imp_left (List.mem_append_left _)
    · rw [hids, hdeclared]
      intro id hid
      rcases List.mem_cons.1 hid with rfl | hid
      · exact Or.inl (List.mem_append_right _ (List.mem_singleton.2 rfl))
      · exact (hf.wires id hid).imp_left (List.mem_append_left _)
  · have hgates := hr.gates
    rw [if_pos (hkept r (hr.rebindings ▸ List.mem_cons_self))] at hgates
    constructor
    · rw [hgates, hr.wires]
      exact hf.inputs
    · rw [hgates, hr.wires]
      exact hf.wires
  · constructor
    · rw [hsame.gates, hsame.wires]
      exact hf.inputs
    · rw [hsame.gates, hsame.wires]
      exact hf.wires

theorem Reaches.fed (h : Reaches q limit empty d) (hsmall : d.wires.size < UInt32.size)
    (hkept : ∀ r ∈ d.rebindings, r.old = r.new) : d.Fed := by
  induction h with
  | refl => exact fed_empty
  | tail hbefore hchange ih =>
    have hsize := Nat.lt_of_le_of_lt (Reaches.step hchange).size_le hsmall
    have hearlier := fun r hr => hkept r (hchange.rebindings_suffix.subset hr)
    exact hchange.fed (Reaches.numbered hbefore hsize) (ih hsize hearlier) hsmall hkept

/-! ## Netlists of descriptions -/

/-- All assignments that rebind a name, in the expansion of a description, have a
property. -/
def RebindsOnly (p : Rebinding → Prop) (limit : UInt64) (nodes : List Node) : Prop :=
  ∀ outputs d, Draft.ofForest limit nodes = .ok (outputs, d) → ∀ r ∈ d.rebindings, p r

instance (p : Rebinding → Prop) [DecidablePred p] (limit : UInt64) (nodes : List Node) :
    Decidable (RebindsOnly p limit nodes) :=
  match h : Draft.ofForest limit nodes with
  | .error _ => isTrue fun _ _ hd => nomatch h.symm.trans hd
  | .ok (outputs, d) => decidable_of_iff (∀ r ∈ d.rebindings, p r) <| by
      constructor
      · intro hall outputs' d' hd
        cases h.symm.trans hd
        exact hall
      · exact fun hall => hall outputs d h

end Draft

namespace Gate

/-- Gates drive later wires than the gates before them in a list. -/
theorem lt_of_pairwise_outputs {gates : List Gate}
    (h : (gates.flatMap outputs).Pairwise (· < ·)) {i j : Nat} (hi : i < gates.length)
    (hj : j < gates.length) (hij : i < j) {a b : WireId} (ha : a ∈ gates[i].outputs)
    (hb : b ∈ gates[j].outputs) : a < b :=
  List.pairwise_iff_getElem.1 (List.pairwise_flatMap.1 h).2 i j hi hj hij a ha b hb

/-- A wire is an output of one gate at most. -/
theorem eq_of_mem_outputs {gates : List Gate} (h : (gates.flatMap outputs).Pairwise (· < ·))
    {i j : Nat} (hi : i < gates.length) (hj : j < gates.length) {wire : WireId}
    (hwire : wire ∈ gates[i].outputs) (hwire' : wire ∈ gates[j].outputs) : i = j := by
  rcases Nat.lt_trichotomy i j with hlt | heq | hlt
  · exact absurd (lt_of_pairwise_outputs h hi hj hlt hwire hwire') (UInt32.lt_irrefl _)
  · exact heq
  · exact absurd (lt_of_pairwise_outputs h hj hi hlt hwire' hwire) (UInt32.lt_irrefl _)

end Gate

namespace Netlist

theorem length_drivers_le_one {n : Netlist}
    (h : (n.gates.flatMap Gate.outputs).Pairwise (· < ·)) (wire : WireId) :
    (n.drivers wire).length ≤ 1 := by
  have hsorted := (List.pairwise_flatMap.1 h).2.filter fun gate => gate.outputs.contains wire
  have hdrives : ∀ gate ∈ n.drivers wire, wire ∈ gate.outputs := fun gate hgate =>
    List.contains_iff_mem.1 (List.mem_filter.1 hgate).2
  change (n.drivers wire).Pairwise _ at hsorted
  match hdrivers : n.drivers wire with
  | [] | [_] => simp
  | first :: second :: rest =>
    rw [hdrivers] at hsorted hdrives
    have hlt := List.rel_of_pairwise_cons hsorted List.mem_cons_self
      wire (hdrives first List.mem_cons_self)
      wire (hdrives second (List.mem_cons_of_mem _ List.mem_cons_self))
    exact absurd hlt (UInt32.lt_irrefl _)

/-- Gates that read what is declared or driven before them are acyclic, if no gate drives a
declared wire or one of another gate. -/
theorem acyclic_of_fed {n : Netlist} (h : (n.gates.flatMap Gate.outputs).Pairwise (· < ·))
    (hdeclared : ∀ gate ∈ n.gates, ∀ output ∈ gate.outputs, output ∉ n.wires.declared)
    (hinputs : ∀ earlier gate later, n.gates = earlier ++ gate :: later → ∀ input ∈ gate.inputs,
      input ∈ n.wires.declared ∨ ∃ source ∈ earlier, input ∈ source.outputs) :
    Gate.Acyclic n.gates := by
  refine Gate.acyclic_of_feeds_lt fun i j ⟨wire, hout, hin⟩ => ?_
  have hsplit : n.gates = n.gates.take j ++ n.gates[j.val] :: n.gates.drop (j + 1) := by
    rw [List.cons_getElem_drop_succ, List.take_append_drop]
  rcases hinputs _ _ _ hsplit wire hin with hdecl | ⟨source, hsource, hout'⟩
  · exact absurd hdecl (hdeclared _ (List.getElem_mem i.isLt) wire hout)
  · obtain ⟨k, hk, rfl⟩ := List.mem_iff_getElem.1 hsource
    rw [List.length_take] at hk
    have hk' : k < n.gates.length := by omega
    rw [List.getElem_take] at hout'
    have heq : i.val = k := Gate.eq_of_mem_outputs h i.isLt hk' hout hout'
    rw [Fin.lt_def, heq]
    exact Nat.lt_of_lt_of_le hk (Nat.min_le_left _ _)

/-- With fewer wires than numbers, every wire of a description is an output of a gate or
declared.  If no assignment takes a driven wire out of use, then each gate drives later
wires than the gates before it, so no wire has two drivers, and a declared one has none.
If no assignment takes any wire out of use, then every gate reads wires that are declared
or driven by earlier gates, so nothing feeds itself. -/
theorem drivers_ofForest {limit : UInt64} {nodes : List Node} {n : Netlist}
    (hn : ofForest limit nodes = .ok n) (hsmall : n.wires.size < UInt32.size) :
    (n.gates.flatMap Gate.outputs).length + n.wires.declared.length = n.wires.size ∧
      (Draft.RebindsOnly (fun r => r.old ≠ r.new → r.driven = false) limit nodes →
        (n.gates.flatMap Gate.outputs).Pairwise (· < ·) ∧
          (∀ wire, (n.drivers wire).length ≤ 1) ∧
          ∀ wire ∈ n.wires.declared, n.drivers wire = []) ∧
      (Draft.RebindsOnly (fun r => r.old = r.new) limit nodes →
        (∀ earlier gate later, n.gates = earlier ++ gate :: later → ∀ input ∈ gate.inputs,
          input ∈ n.wires.declared ∨ ∃ source ∈ earlier, input ∈ source.outputs) ∧
        Gate.Acyclic n.gates) := by
  obtain ⟨outputs, d, hd, rfl⟩ := eq_linkContexts_of_ofForest hn
  have hreaches := (Draft.leads_ofForest (Node.allIn_true nodes) hd).reaches
  have hdriven (ho : d.Ordered) : ∀ gate ∈ d.gates.reverse, ∀ output ∈ gate.outputs,
      output ∉ d.wires.declared := fun gate hgate output hout =>
    (ho.driven gate (List.mem_reverse.1 hgate) output hout).2
  refine ⟨?_, fun hspares => ?_, fun hkept => ?_⟩
  · have hsum := hreaches.accounted hsmall
    have hperm := d.gates.reverse_perm.flatMap_right Gate.outputs
    rw [Draft.Accounted, ← hperm.length_eq] at hsum
    exact hsum
  · have ho := hreaches.ordered hsmall (hspares outputs d hd)
    refine ⟨ho.ordered, length_drivers_le_one ho.ordered, fun wire hwire => ?_⟩
    refine List.filter_eq_nil_iff.2 fun gate hgate hcontains => ?_
    exact hdriven ho gate hgate wire (List.contains_iff_mem.1 hcontains) hwire
  · have hall := hkept outputs d hd
    have ho := hreaches.ordered hsmall fun r hr hne => absurd (hall r hr) hne
    have hinputs : ∀ earlier gate later, d.gates.reverse = earlier ++ gate :: later →
        ∀ input ∈ gate.inputs,
          input ∈ d.wires.declared ∨ ∃ source ∈ earlier, input ∈ source.outputs := by
      intro earlier gate later hgates input hinput
      have hsuffix : gate :: earlier.reverse <:+ d.gates := by
        refine ⟨later.reverse, ?_⟩
        rw [← List.reverse_reverse d.gates, hgates]
        simp
      refine ((hreaches.fed hsmall hall).inputs gate _ hsuffix input hinput).imp_right ?_
      rintro ⟨source, hsource, hout⟩
      exact ⟨source, List.mem_reverse.1 hsource, hout⟩
    exact ⟨hinputs, acyclic_of_fed ho.ordered (hdriven ho) hinputs⟩

/-- A latch: the name `nq` is used before it is assigned, so its wire is taken out of
use. -/
def latch : List Node :=
  let pos := Position.start
  let nor (a b : String) : Node :=
    .group pos [.negation pos (some (.group pos
      [.binary pos .disj (.identifier pos a) (some (.identifier pos b))]))]
  [.assignment pos ["q"], nor "r" "nq", .assignment pos ["nq"], nor "s" "q",
    .group pos [.identifier pos "q", .identifier pos "nq"]]

/-- A component, and a block whose argument it is. -/
def clocked : List Node :=
  let pos := Position.start
  [.block pos "both" ["a", "b"] 1
      [.returns pos, .group pos
        [.binary pos .conj (.identifier pos "a") (some (.identifier pos "b"))]],
    .assignment pos ["x"],
    .invocation pos "both"
      [.invocation pos "tflipflop" [.identifier pos "clock", .literal pos true]],
    .assignment pos ["x"], .identifier pos "x"]

/-- The latch has one driver for each wire although it feeds itself.  The other
description assigns a name its own wire, and feeds nothing back. -/
theorem drivers_ofForest_latch :
    (∃ n, ofForest 1 latch = .ok n ∧ n.wires.size = 7 ∧
      (n.gates.flatMap Gate.outputs).length + n.wires.declared.length = n.wires.size ∧
      (n.gates.flatMap Gate.outputs).Pairwise (· < ·) ∧
      ¬Draft.RebindsOnly (fun r => r.old = r.new) 1 latch) ∧
    ∃ n, ofForest 2 clocked = .ok n ∧ n.wires.size = 8 ∧ Gate.Acyclic n.gates ∧
      ¬Draft.RebindsOnly (fun _ => False) 2 clocked := by
  constructor
  · obtain ⟨n, hn, hsize⟩ : ∃ n, ofForest 1 latch = .ok n ∧ n.wires.size = 7 :=
      exists_of_toOption_map (by decide +kernel)
    obtain ⟨hsum, hordered, -⟩ := drivers_ofForest hn (by rw [hsize]; decide)
    exact ⟨n, hn, hsize, hsum, (hordered (by decide +kernel)).1, by decide +kernel⟩
  · obtain ⟨n, hn, hsize⟩ : ∃ n, ofForest 2 clocked = .ok n ∧ n.wires.size = 8 :=
      exists_of_toOption_map (by decide +kernel)
    obtain ⟨-, -, hfed⟩ := drivers_ofForest hn (by rw [hsize]; decide)
    exact ⟨n, hn, hsize, (hfed (by decide +kernel)).2, by decide +kernel⟩

end Netlist

end Gatework
