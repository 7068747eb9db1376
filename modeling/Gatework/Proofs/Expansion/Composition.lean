import Gatework.Proofs.Expansion.Turns

/-!
# Relations between the drafts of an expansion

What an expansion adds to one part of a draft is often in step with what it adds to
another part.  Such a relation between an earlier and a later draft is shown once for
each piece, and then it holds of whole expansions.

There are two groups.

* `Composes` lists what there is to show of a relation.  For the expansion of a block it
  may be assumed of the body, up to the values that the block passes out.
* The pieces of an expansion make every such relation, by induction on the bound of the
  depth (`Composes.makes`), and so do whole expansions (`Composes.expandAll`).
-/

namespace Gatework.Expansion

open Draft

/-! ## What there is to show -/

/-- A relation between drafts that composes, and that each piece of an expansion makes if
the pieces inside it do. -/
structure Composes (limit : UInt64) (r : Draft → Draft → Prop) : Prop where
  refl : ∀ d, r d d
  trans : ∀ ⦃d d' d''⦄, r d d' → r d' d'' → r d d''
  counted : ∀ node d, r d (d.counted node)
  place : ∀ ⦃kind label inputs count outputs⦄ ⦃d d' : Draft⦄, kind ≠ .blockOutput →
    d.place kind label inputs count d.scope.id = (outputs, d') → r d d'
  define : ∀ block d, r d (d.define block)
  name : ∀ ⦃name wire d d'⦄, Runs (wireOf name) d wire d' → r d d'
  assign : ∀ pairs d, r d (d.assignAll pairs)
  block : ∀ ⦃step name args d outputs d'⦄ (run : BlockRun limit step name args d outputs d')
    ⦃values returning⦄, r run.entered returning →
      Runs (passOutputs run.call.block run.call.count run.frame 0 values) returning outputs
        run.inner → r run.argued d'

/-! ## Whole expansions -/

/-- A step whose runs make a relation. -/
def Makes (r : Draft → Draft → Prop) (step : Step) : Prop :=
  ∀ ⦃node : Node⦄ ⦃rest : List Node⦄ ⦃d : Draft⦄ ⦃yield : Yield⦄ ⦃d' : Draft⦄,
    Runs (step node rest) d yield d' → r d d'

/-- The nodes of a body end with a return that passes values out, or there are none. -/
theorem Composes.expandBody {limit : UInt64} {r : Draft → Draft → Prop} (h : Composes limit r)
    {fuel : Nat} (hstep : Makes r (Expansion.step limit fuel)) {block : Block} {count : Nat}
    {frame : ContextId} {skipped : Nat} {nodes : List Node} {outputs : List WireId} {d d' : Draft}
    (hruns : Runs (expandBody (Expansion.step limit fuel) block count frame skipped nodes) d outputs
      d') :
    ∃ values returning, r d returning ∧
      Runs (passOutputs block count frame 0 values) returning outputs d' := by
  induction nodes generalizing d skipped outputs with
  | nil =>
    rw [Expansion.expandBody] at hruns
    obtain ⟨rfl, rfl⟩ := runs_pure.1 hruns
    exact ⟨[], d', h.refl d', runs_pure.2 ⟨rfl, rfl⟩⟩
  | cons node rest ih =>
    cases skipped with
    | succ skipped => exact ih hruns
    | zero =>
      obtain ⟨yield, between, hnode, passed, last, hpassed, more, hmore, rfl⟩ :=
        runs_expandBody_cons hruns
      rcases hpassed with ⟨hreturn, hpassed⟩ | ⟨-, rfl, rfl⟩
      · rw [taken_of_isReturn hreturn hnode, Nat.add_sub_cancel_left, expandBody_eq_drop,
          List.drop_length] at hmore
        obtain ⟨rfl, rfl⟩ := runs_pure.1 hmore
        rw [List.append_nil]
        exact ⟨yield.values, between, hstep hnode, hpassed⟩
      · obtain ⟨values, returning, hreturning, hvalues⟩ := ih hmore
        exact ⟨values, returning, h.trans (hstep hnode) hreturning, hvalues⟩

namespace Composes

variable {limit : UInt64} {r : Draft → Draft → Prop} {step : Step} {d d' : Draft}

theorem valuesEach (h : Composes limit r) (hstep : Makes r step) {nodes : List Node}
    {values : List (List WireId)} (hruns : Runs (valuesEach step nodes) d values d') : r d d' := by
  induction nodes generalizing d values with
  | nil =>
    obtain ⟨-, rfl⟩ := runs_pure.1 hruns
    exact h.refl d'
  | cons node rest ih =>
    obtain ⟨yield, between, hnode, more, hmore, -⟩ := runs_valuesEach_cons.1 hruns
    exact h.trans (hstep hnode) (ih hmore)

theorem makes (h : Composes limit r) (fuel : Nat) : Makes r (Expansion.step limit fuel) := by
  induction fuel with
  | zero => exact fun _ _ _ _ _ hruns => absurd hruns runs_throw
  | succ fuel ih =>
    intro node rest d yield d' hruns
    obtain ⟨values, mid, hvalues, hfinish⟩ := exists_finish hruns
    refine h.trans (h.trans (h.counted node d) (h.valuesEach ih hvalues)) ?_
    cases hfinish with
    | gather => exact h.refl _
    | place hplace hkind => exact h.place hkind hplace
    | define => exact h.define _ mid
    | name hwire => exact h.name hwire
    | assign => exact h.assign _ mid
    | invoke hname run harguments hargued =>
      obtain ⟨values, returning, hreturning, hpassed⟩ := h.expandBody ih run.hbody
      exact hargued ▸ h.block run hreturning hpassed

theorem expandAll (h : Composes limit r) {fuel skipped : Nat} {values values' : List WireId}
    {nodes : List Node}
    (hruns : Runs (expandAll (Expansion.step limit fuel) values skipped nodes) d values' d') :
    r d d' := by
  induction nodes generalizing d values skipped with
  | nil =>
    rw [Expansion.expandAll] at hruns
    obtain ⟨-, rfl⟩ := runs_pure.1 hruns
    exact h.refl d'
  | cons node rest ih =>
    cases skipped with
    | succ skipped => exact ih hruns
    | zero =>
      obtain ⟨yield, between, hnode, hruns⟩ := runs_expandAll_cons hruns
      exact h.trans (h.makes fuel hnode) (ih hruns)

end Composes

end Gatework.Expansion
