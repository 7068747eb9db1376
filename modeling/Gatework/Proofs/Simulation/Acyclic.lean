import Gatework.Proofs.Simulation.FixedPoint
import Mathlib.Data.Fintype.Card
import Mathlib.Logic.Relation

/-!
# Circuits without cycles settle

A circuit in which no gate feeds itself, directly or through others, settles
after at most one round more than it has gates, whatever its gates do, remember
and share.

There are four groups.

* Two rounds in a row.  If a set of wires has the same signals before both, and
  the gates that drive wires of the set read wires of the set only, then these
  wires have the same signals after both (`isPowered_act_act`).
* `Ranks` numbers the wires so that every gate drives wires of higher numbers
  than it reads.  After `k` rounds the wires up to the number `k` have their last
  signal (`Ranks.isPowered_iterate`), by induction on `k`.
* `Ranks.simulate` is the conclusion from a bounded numbering.
* Acyclic lists of gates.  The number of the gates from which a wire can be
  reached is a numbering of the wires (`ranks_reachedFrom`).
-/

namespace Gatework

namespace Circuit

/-! ## Two rounds in a row -/

section TwoRounds

variable {K : WireId → Prop} {a b : Arena}

/-- The gates that drive wires of a set read wires of the set only. -/
def ClosedUnder (K : WireId → Prop) (gates : List Gate) : Prop :=
  ∀ gate ∈ gates, ∀ id ∈ gate.driven, K id → ∀ wire ∈ gate.inputs, K wire

/-- A wire that is driven by gates that read wires of a closed set has the same
signal after both rounds, if it is driven at all or had the same signal before. -/
theorem isPowered_act_act {gates : List Gate} (hclosed : ClosedUnder K gates)
    (hdark : a.dark = b.dark) (hsame : ∀ id, K id → a.isPowered id = b.isPowered id) {id : WireId}
    (hreads : ∀ gate ∈ gates, id ∈ gate.driven → ∀ wire ∈ gate.inputs, K wire)
    (hstart : (∃ gate ∈ gates, id ∈ gate.driven) ∨ a.isPowered id = b.isPowered id) :
    (act gates a).wires.isPowered id = (act (act gates a).gates b).wires.isPowered id := by
  induction gates generalizing id with
  | nil =>
    rcases hstart with ⟨gate, hgate, _⟩ | hstart
    · exact absurd hgate List.not_mem_nil
    · exact hstart
  | cons gate later ih =>
    have hlater : ClosedUnder K later := fun g hg => hclosed g (List.mem_cons_of_mem _ hg)
    -- wires of the set agree wherever the round has come to
    have hset : ∀ wire, K wire → (act later a).wires.isPowered wire =
        (act (act later a).gates b).wires.isPowered wire := fun wire hwire =>
      ih hlater (fun g hg hdriven => hlater g hg wire hdriven hwire) (Or.inr (hsame wire hwire))
    have hids : (act later a).wires.ids = (act (act later a).gates b).wires.ids := by
      apply Arena.ids_eq_of_dark_eq
      rw [dark_act, dark_act, hdark]
    rw [act_cons, act_cons]
    by_cases hdriven : id ∈ gate.driven
    · have hinputs := hreads gate List.mem_cons_self hdriven
      have hagain := gate.react_again_of_agree fun wire hwire => hset wire (hinputs wire hwire)
      rw [hagain]
      refine Arena.isPowered_drive_congr hids (Or.inl ?_)
      rwa [Gate.map_fst_react]
    · have hkeep : ∀ (read : WireId → Bool) (g : Gate), g.bare = gate.bare →
          id ∉ (g.react read).drives.map Prod.fst := by
        intro read g hg
        rwa [Gate.map_fst_react, Gate.driven_eq_of_bare_eq hg]
      rw [Arena.isPowered_drive_of_not_mem (hkeep _ gate rfl),
        Arena.isPowered_drive_of_not_mem (hkeep _ _ (Gate.bare_withState _ _))]
      refine ih hlater (fun g hg => hreads g (List.mem_cons_of_mem _ hg)) ?_
      rcases hstart with ⟨g, hg, hmem⟩ | hstart
      · rcases List.mem_cons.1 hg with rfl | hg
        · exact absurd hmem hdriven
        · exact Or.inl ⟨g, hg, hmem⟩
      · exact Or.inr hstart

end TwoRounds

/-! ## Ranked circuits -/

/-- A numbering of the wires.  Driven wires have positive numbers, and higher
ones than the wires from which they are driven. -/
def Ranks (rank : WireId → Nat) (gates : List Gate) : Prop :=
  ∀ gate ∈ gates, ∀ id ∈ gate.driven, 0 < rank id ∧ ∀ wire ∈ gate.inputs, rank wire < rank id

namespace Ranks

variable {rank : WireId → Nat} {c : Circuit}

theorem iterate (h : Ranks rank c.gates) (k : Nat) : Ranks rank (round^[k] c).gates := by
  intro gate hgate id hid
  obtain ⟨g, hg, hbare⟩ := exists_bare_eq_of_mem_iterate hgate
  rw [← Gate.driven_eq_of_bare_eq hbare] at hid
  rw [← Gate.inputs_eq_of_bare_eq hbare]
  exact h g hg id hid

/-- From the round `k` on, the wires up to the number `k` keep their signals. -/
theorem isPowered_iterate (h : Ranks rank c.gates) {k m : Nat} (hkm : k ≤ m) {id : WireId}
    (hid : rank id ≤ k) :
    (round^[m] c).wires.isPowered id = (round^[m + 1] c).wires.isPowered id := by
  induction k generalizing m id with
  | zero =>
    have hfree : ∀ gate ∈ (round^[m] c).gates, id ∉ gate.driven := by
      intro gate hgate hdriven
      have hpos := (h.iterate m gate hgate id hdriven).1
      omega
    rw [Function.iterate_succ_apply', round_eq, isPowered_act_of_not_driven hfree]
  | succ k ih =>
    obtain ⟨m, rfl⟩ : ∃ l, m = l + 1 := ⟨m - 1, by omega⟩
    have hranks := h.iterate m
    have hstep : ∀ l, round^[l + 1] c = (round^[l] c).round := fun l =>
      Function.iterate_succ_apply' round l c
    have hsame : ∀ wire, rank wire ≤ k → (round^[m] c).wires.isPowered wire =
        (round^[m + 1] c).wires.isPowered wire := fun wire hwire => ih (by omega) hwire
    have hdark : (round^[m] c).wires.dark = (round^[m + 1] c).wires.dark := by
      rw [dark_iterate_round, dark_iterate_round]
    have hclosed : ClosedUnder (fun wire => rank wire ≤ k) (round^[m] c).gates := by
      intro gate hgate wire hwire hle input hinput
      have hlt := (hranks gate hgate wire hwire).2 input hinput
      show rank input ≤ k
      have hle' : rank wire ≤ k := hle
      omega
    have hreads : ∀ gate ∈ (round^[m] c).gates, id ∈ gate.driven →
        ∀ wire ∈ gate.inputs, rank wire ≤ k := by
      intro gate hgate hdriven wire hwire
      have hlt := (hranks gate hgate id hdriven).2 wire hwire
      omega
    have hstart : (∃ gate ∈ (round^[m] c).gates, id ∈ gate.driven) ∨
        (round^[m] c).wires.isPowered id = (round^[m + 1] c).wires.isPowered id := by
      by_cases hfree : ∀ gate ∈ (round^[m] c).gates, id ∉ gate.driven
      · right
        rw [hstep m, round_eq, isPowered_act_of_not_driven hfree]
      · left
        push Not at hfree
        exact hfree
    have hboth := isPowered_act_act hclosed hdark hsame hreads hstart
    rw [hstep (m + 1), round_eq (round^[m + 1] c), hstep m] at *
    exact hboth

/-- A circuit whose wires have bounded numbers settles within one round more than
the bound. -/
theorem simulate (h : Ranks rank c.gates) {bound : Nat} (hbound : ∀ id, rank id ≤ bound)
    (hlimit : bound < c.roundLimit) :
    c.simulate.1.converged = true ∧ c.simulate.1.rounds ≤ bound + 1 := by
  have hrest : AtRest (round^[bound] c) := by
    refine Arena.eq_of_dark_eq (dark_act _ _) fun id => ?_
    have hkeep := h.isPowered_iterate (Nat.le_refl bound) (hbound id)
    rw [Function.iterate_succ_apply'] at hkeep
    exact hkeep.symm
  exact simulate_of_atRest hlimit hrest

end Ranks

end Circuit

/-! ## Acyclic lists of gates -/

namespace Gate

/-- The gate at one place of a list lists an output that the gate at another
place lists as an input. -/
def Feeds (gates : List Gate) (i j : Fin gates.length) : Prop :=
  ∃ wire ∈ gates[i].outputs, wire ∈ gates[j].inputs

instance (gates : List Gate) : DecidableRel (Feeds gates) := fun i j =>
  inferInstanceAs (Decidable (∃ wire ∈ gates[i].outputs, wire ∈ gates[j].inputs))

/-- No gate feeds itself, directly or through others. -/
def Acyclic (gates : List Gate) : Prop := ∀ i, ¬Relation.TransGen (Feeds gates) i i

/-- Gates that feed later gates only are acyclic. -/
theorem acyclic_of_feeds_lt {gates : List Gate} (h : ∀ i j, Feeds gates i j → i < j) :
    Acyclic gates := by
  have hpath : ∀ i j, Relation.TransGen (Feeds gates) i j → i < j := by
    intro i j hij
    induction hij with
    | single hfeeds => exact h _ _ hfeeds
    | tail _ hfeeds ih => exact ih.trans (h _ _ hfeeds)
  exact fun i hi => lt_irrefl i (hpath i i hi)

open Classical in
/-- The places of the gates from which a wire can be reached. -/
noncomputable def reaching (gates : List Gate) (wire : WireId) : Finset (Fin gates.length) :=
  {i | ∃ j, wire ∈ gates[j].outputs ∧ Relation.ReflTransGen (Feeds gates) i j}

theorem mem_reaching {gates : List Gate} {wire : WireId} {i : Fin gates.length} :
    i ∈ reaching gates wire ↔
      ∃ j, wire ∈ gates[j].outputs ∧ Relation.ReflTransGen (Feeds gates) i j := by
  simp [reaching]

/-- From more gates a wire can be reached than the wires that its gate reads. -/
theorem reaching_ssubset {gates : List Gate} (h : Acyclic gates) {j : Fin gates.length}
    {wire input : WireId} (hwire : wire ∈ gates[j].outputs) (hinput : input ∈ gates[j].inputs) :
    reaching gates input ⊂ reaching gates wire := by
  rw [Finset.ssubset_iff_of_subset]
  · refine ⟨j, mem_reaching.2 ⟨j, hwire, .refl⟩, fun hj => ?_⟩
    obtain ⟨i, hi, hpath⟩ := mem_reaching.1 hj
    exact h j (Relation.TransGen.tail' hpath ⟨input, hi, hinput⟩)
  · intro i hi
    obtain ⟨l, hl, hpath⟩ := mem_reaching.1 hi
    exact mem_reaching.2 ⟨j, hwire, hpath.tail ⟨input, hl, hinput⟩⟩

theorem ranks_reaching {gates : List Gate} (h : Acyclic gates) :
    Circuit.Ranks (fun wire => (reaching gates wire).card) gates := by
  intro gate hgate id hid
  obtain ⟨j, hj, rfl⟩ := List.mem_iff_getElem.1 hgate
  have hout : id ∈ gates[(⟨j, hj⟩ : Fin gates.length)].outputs :=
    mem_outputs_of_mem_driven hid
  refine ⟨Finset.card_pos.2 ⟨⟨j, hj⟩, mem_reaching.2 ⟨_, hout, .refl⟩⟩, ?_⟩
  intro wire hwire
  exact Finset.card_lt_card (reaching_ssubset h hout hwire)

theorem card_reaching_le (gates : List Gate) (wire : WireId) :
    (reaching gates wire).card ≤ gates.length := by
  calc (reaching gates wire).card ≤ Fintype.card (Fin gates.length) := Finset.card_le_univ _
    _ = gates.length := Fintype.card_fin _

end Gate

namespace Netlist

/-- A netlist without cycles settles within one round more than it has gates. -/
theorem converged_of_acyclic (n : Netlist) (h : Gate.Acyclic n.gates) :
    n.simulate.1.converged = true ∧ n.simulate.1.rounds ≤ n.gates.length + 1 := by
  rw [simulate_fst]
  refine Circuit.Ranks.simulate (Gate.ranks_reaching h) (Gate.card_reaching_le n.gates) ?_
  show n.gates.length < max 1 (5 * (n.wires.size + n.gates.length))
  omega

/-- Two flip-flops in a row, of which the second has the first as its clock.  The
edge of the source takes a round for each gate. -/
def rippling : Netlist :=
  .ofParts
    [⟨⟨1⟩, .source, "", [], [⟨1⟩], .root, ""⟩,
      ⟨⟨2⟩, .builtin, "tflipflop", [⟨1⟩, ⟨1⟩], [⟨2⟩, ⟨3⟩], .root, ""⟩,
      ⟨⟨3⟩, .builtin, "tflipflop", [⟨2⟩, ⟨1⟩], [⟨4⟩, ⟨5⟩], .root, ""⟩]
    [.fresh ⟨1⟩ none, .fresh ⟨2⟩ none, .fresh ⟨3⟩ none, .fresh ⟨4⟩ none, .fresh ⟨5⟩ none]

theorem converged_rippling :
    Gate.Acyclic rippling.gates ∧ rippling.simulate.1.converged = true ∧
      rippling.simulate.1.rounds ≤ 4 := by
  have hacyclic : Gate.Acyclic rippling.gates := Gate.acyclic_of_feeds_lt (by decide)
  exact ⟨hacyclic, converged_of_acyclic rippling hacyclic⟩

end Netlist

end Gatework
