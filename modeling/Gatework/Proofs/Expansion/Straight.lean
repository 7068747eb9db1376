import Gatework.Proofs.Expansion.Drivers

/-!
# Drafts without rebindings

As long as no name is rebound, no gate is touched once it is there.  Gates then
read earlier wires than they drive, and every wire is driven once or declared.

There are two groups.

* What is there stays there: the gates of a draft are the first gates of every
  later one, and the declared wires are the first declared wires (`Reaches.grows`).
* `Draft.Straight` collects what holds of the gates, and `Reaches.straight` is
  the result for all drafts that changes lead to.
-/

namespace Gatework.Draft

variable {q : Node → Bool} {limit : UInt64} {d d' : Draft}

/-! ## What stays -/

theorem Change.grows (h : Change q limit d d') (hd : d.Numbered)
    (hsmall : d'.wires.size < UInt32.size) (hnone : d'.rebindings = []) :
    d.gates <:+ d'.gates ∧ d.wires.declared <+: d'.wires.declared := by
  rcases h.circuit_cases with ⟨kind, label, inputs, count, context, -, rfl⟩ | ⟨name, rfl⟩ |
    ⟨name, wire, -, rfl⟩ | hsame
  · have hgates := (gates_place kind label inputs count context d).1
    rw [hgates, (hd.place hsmall).2.2]
    exact ⟨List.suffix_cons _ _, List.prefix_refl _⟩
  · have hdeclared : (d.declare name).2.wires.declared = _ := hd.declared_newWire _
    rw [hdeclared]
    exact ⟨List.suffix_refl _, List.prefix_append _ _⟩
  · rw [assign_eq_of_rebindings hnone]
    split <;> exact ⟨List.suffix_refl _, List.prefix_refl _⟩
  · rw [hsame.gates, hsame.wires]
    exact ⟨List.suffix_refl _, List.prefix_refl _⟩

theorem Reaches.rebindings_eq_nil (h : Reaches q limit d d') (hnone : d'.rebindings = []) :
    d.rebindings = [] := by
  induction h with
  | refl => exact hnone
  | tail _ hchange ih => exact ih (hchange.rebindings_eq_nil hnone)

/-- Without rebindings, gates and declared wires stay what and where they are. -/
theorem Reaches.grows (h : Reaches q limit d d') (hd : Reaches q limit empty d)
    (hsmall : d'.wires.size < UInt32.size) (hnone : d'.rebindings = []) :
    d.gates <:+ d'.gates ∧ d.wires.declared <+: d'.wires.declared := by
  induction h with
  | refl => exact ⟨List.suffix_refl _, List.prefix_refl _⟩
  | @tail between last hbetween hchange ih =>
    have hsize : between.wires.size < UInt32.size :=
      Nat.lt_of_le_of_lt (Reaches.step hchange).size_le hsmall
    obtain ⟨hgates, hdeclared⟩ := ih hsize (hchange.rebindings_eq_nil hnone)
    have hnumbered := (hd.trans hbetween).numbered hsize
    obtain ⟨hgates', hdeclared'⟩ := hchange.grows hnumbered hsmall hnone
    exact ⟨hgates.trans hgates', hdeclared.trans hdeclared'⟩

/-! ## Straight drafts -/

/-- A draft whose gates read earlier wires than they drive, and in which no wire is
driven twice, or driven and declared. -/
structure Straight (d : Draft) : Prop where
  ranked : ∀ gate ∈ d.gates, ∀ output ∈ gate.outputs, ∀ input ∈ gate.inputs,
    input.number.toNat < output.number.toNat
  driven : ∀ gate ∈ d.gates, ∀ output ∈ gate.outputs,
    output ∈ d.wires.ids ∧ output ∉ d.wires.declared
  nodup : (d.gates.flatMap Gate.outputs).Nodup

/-- A new gate reads wires of the draft and drives wires of its own. -/
theorem Change.ranked (h : Change q limit d d') (hd : d.Numbered)
    (hranked : ∀ gate ∈ d.gates, ∀ output ∈ gate.outputs, ∀ input ∈ gate.inputs,
      input.number.toNat < output.number.toNat)
    (hsmall : d'.wires.size < UInt32.size) (hnone : d'.rebindings = []) :
    ∀ gate ∈ d'.gates, ∀ output ∈ gate.outputs, ∀ input ∈ gate.inputs,
      input.number.toNat < output.number.toNat := by
  rcases h.driver_cases with ⟨kind, label, inputs, count, context, hinputs, rfl⟩ | ⟨name, rfl⟩ |
    ⟨r, hr⟩ | hsame
  · obtain ⟨hnumbered, hids, -⟩ := hd.place hsmall
    rw [(gates_place kind label inputs count context d).1]
    intro gate hgate output houtput input hinput
    rcases List.mem_cons.1 hgate with rfl | hgate
    · exact hnumbered.number_lt hids (hinputs input hinput) (List.mem_reverse.2 houtput)
    · exact hranked gate hgate output houtput input hinput
  · exact hranked
  · exact absurd (hr.rebindings.symm.trans hnone) (List.cons_ne_nil _ _)
  · rw [hsame.gates]
    exact hranked

/-- With fewer wires than numbers, changes that rebind no name lead to straight
drafts. -/
theorem Reaches.straight (h : Reaches q limit empty d) (hsmall : d.wires.size < UInt32.size)
    (hnone : d.rebindings = []) : d.Straight := by
  have hordered : d.Ordered := h.ordered hsmall (by simp [hnone])
  refine ⟨?_, hordered.driven, ?_⟩
  · clear hordered
    induction h with
    | refl => exact fun _ hgate => absurd hgate List.not_mem_nil
    | tail hbefore hchange ih =>
      have hsize := Nat.lt_of_le_of_lt (Reaches.step hchange).size_le hsmall
      have hranked := ih hsize (hchange.rebindings_eq_nil hnone)
      exact hchange.ranked (Reaches.numbered hbefore hsize) hranked hsmall hnone
  · refine (d.gates.reverse_perm.flatMap_right Gate.outputs).nodup_iff.1 ?_
    refine hordered.ordered.imp fun hlt heq => ?_
    rw [heq] at hlt
    exact UInt32.lt_irrefl _ hlt

end Gatework.Draft
