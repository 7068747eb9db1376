import Gatework.Proofs.Expansion.Gone

/-!
# Rebinding a name

An assignment to a bound name takes the wire out of use to which the name was bound.
It patches the gates and the scopes, but not the values that the expansion holds back
meanwhile: those of the parts before an invocation, and those that the assignment has
still to assign.  A wire that is not among them is gone for good.

There are three groups.

* Drafts that an expansion can come to, and that turns and their parts lead to others.
* `Expansion.Performs` says which wires the expansion of a description holds back while
  it rebinds a name.  Every rebinding has been performed (`exists_performs`).
* `not_mem_mentioned_of_rebinding` is the result, and `outputs_swapped` a description
  in which a wire that is held back comes back into use.
-/

namespace Gatework

open Draft

namespace Draft

/-! ## Drafts on the way -/

/-- An expansion can come to a draft. -/
def Reachable (limit : UInt64) (d : Draft) : Prop := Reaches (fun _ => true) limit empty d

variable {limit : UInt64} {d d' : Draft}

theorem Reachable.sound (h : d.Reachable limit) : d.Sound fun _ => true :=
  Reaches.sound h (sound_empty _)

end Draft

namespace Expansion

variable {limit : UInt64} {d d' : Draft}

theorem reachable_valuesEach {fuel : Nat} {nodes : List Node} {values : List (List WireId)}
    (hd : d.Reachable limit) (h : Runs (valuesEach (step limit fuel) nodes) d values d') :
    d'.Reachable limit ∧ ∀ wire ∈ values.flatten, wire ∈ d'.wires.ids := by
  have hleads := leads_valuesEach (traced_step _ limit fuel) (Node.allIn_true nodes) hd.sound h
  exact ⟨hd.trans hleads.reaches, hleads.mem⟩

theorem Arrives.reachable {fuel : Nat} {nodes rest : List Node} {node : Node}
    (h : Arrives (step limit fuel) nodes d node rest d') (hd : d.Reachable limit) :
    d'.Reachable limit := by
  induction h with
  | here => exact hd
  | next hnode _ ih =>
    have hleads := traced_step (fun _ => true) limit fuel (Node.all_true _) (Node.allIn_true _)
      hd.sound hnode
    exact ih (hd.trans hleads.reaches)

theorem BlockRun.reachable_entered {fuel : Nat} {name : String} {args : List Node}
    {outputs : List WireId} (run : BlockRun limit (step limit fuel) name args d outputs d')
    (hd : d.Reachable limit) : run.entered.Reachable limit :=
  hd.trans (run.reaches_entered_of_start (traced_step _ limit fuel) (Node.allIn_true args) hd.sound)

theorem reachable_counted (node : Node) (hd : d.Reachable limit) :
    (d.counted node).Reachable limit := by
  unfold counted
  split
  · split
    · next call _ hcall => exact hd.trans (.step (.call hcall))
    · exact hd
  · exact hd

namespace Turn

variable {t u : Turn limit} {held : List WireId}

theorem Holds.reachable (h : Holds t held u) (ht : t.before.Reachable limit) :
    u.before.Reachable limit := by
  cases h with
  | part _ _ _ hvalues => exact (reachable_valuesEach (reachable_counted _ ht) hvalues).1
  | body _ _ run harrives => exact harrives.reachable (run.reachable_entered ht)

theorem Inside.reachable (h : Inside t held u) (ht : t.before.Reachable limit) :
    u.before.Reachable limit := by
  induction h with
  | here => exact ht
  | within hholds _ ih => exact ih (hholds.reachable ht)

/-- The draft at which an assignment rebinds a name.  What the assignment does
afterwards brings no wire back that it has not still to assign. -/
theorem Rewrites.exists_keeps {r : Rebinding} {later : List WireId} (h : Rewrites u r later)
    (hu : u.before.Reachable limit) :
    ∃ point : Draft, point.Reachable limit ∧ point.Rebinds r ∧
      Keeps later (point.assign r.name r.new) u.yield.values u.after := by
  cases h with
  | @intro fuel pos names rest before mid after yield values _ front back hruns hvalues hpairs
      hrebinds =>
    obtain ⟨values', mid', hvalues', hnone, rfl⟩ := runs_assignment_parts hruns
    obtain ⟨rfl, rfl⟩ := hvalues.unique hvalues'
    obtain ⟨hmid, hmem⟩ := reachable_valuesEach hu hvalues
    refine ⟨mid.assignAll front, hmid.trans (reaches_assignAll fun pair hpair => ?_), hrebinds, ?_⟩
    · have hzip : pair ∈ names.zip values.flatten := hpairs ▸ List.mem_append_left _ hpair
      exact hmem _ (List.of_mem_zip hzip).2
    · have hback := keeps_assignAll (d := (mid.assignAll front).assign r.name r.new) back
      have hall : mid.assignAll (names.zip values.flatten) =
          ((mid.assignAll front).assign r.name r.new).assignAll back := by
        rw [hpairs, assignAll, List.foldl_append]
        rfl
      dsimp only
      rw [hall, hnone]
      exact hback

end Turn

/-! ## Performed rebindings -/

/-- The expansion of a description rebinds a name while it holds some wires back. -/
inductive Performs (limit : UInt64) (nodes : List Node) (r : Rebinding) : List WireId → Prop
  | intro {t u : Turn limit} {held later : List WireId}
      (hfuel : t.fuel = nestingBound limit nodes)
      (harrives : Arrives (step limit t.fuel) nodes .empty t.node t.rest t.before)
      (hinside : t.Inside held u) (hrewrites : u.Rewrites r later) :
      Performs limit nodes r (held ++ later)

variable {nodes : List Node} {outputs : List WireId} {r : Rebinding}

/-- Every rebinding that an expansion has noted has been performed. -/
theorem exists_performs (h : Draft.ofForest limit nodes = .ok (outputs, d))
    (hr : r ∈ d.rebindings) : ∃ pending, Performs limit nodes r pending := by
  have hruns : Runs (expandAll (step limit (nestingBound limit nodes)) [] 0 nodes) .empty outputs
      d := h
  obtain ⟨node, rest, before, yield, after, harrives, hnode, hnew, hmem⟩ :=
    exists_node (p := fun d => r ∈ d.rebindings) hruns List.not_mem_nil hr
  obtain ⟨held, u, later, hinside, hrewrites⟩ :=
    Turn.exists_inside_of_mem ⟨_, node, rest, before, yield, after, hnode⟩ hnew hmem
  exact ⟨_, .intro rfl harrives hinside hrewrites⟩

/-- A turn in which a name is rebound is not that of a comment. -/
theorem Turn.Inside.isComment_eq_false {t u : Turn limit} {held later : List WireId}
    (h : Inside t held u) (hrewrites : u.Rewrites r later) : t.node.isComment = false := by
  cases h with
  | here =>
    cases hrewrites
    rfl
  | within hholds hinside =>
    cases hholds with
    | part _ _ hparts _ =>
      cases hnode : t.node with
      | comment =>
        rw [hnode] at hparts
        simp [Node.parts] at hparts
      | _ => rfl
    | body _ hnode _ _ =>
      rw [hnode]
      rfl

/-- A wire that is taken out of use and not held back is gone in the end. -/
theorem Performs.gone {pending : List WireId} (hr : Performs limit nodes r pending)
    (h : Draft.ofForest limit nodes = .ok (outputs, d)) (hsmall : d.wires.size < UInt32.size)
    (hne : r.old ≠ r.new) (hpending : r.old ∉ pending) : d.Gone r.old ∧ r.old ∉ outputs := by
  cases hr with
  | @intro t u held later hfuel harrives hinside hrewrites =>
    rw [List.mem_append, not_or] at hpending
    have hruns : Runs (expandAll (step limit t.fuel) [] 0 nodes) .empty outputs d := by
      rw [hfuel]
      exact h
    have ht : t.before.Reachable limit := harrives.reachable .refl
    obtain ⟨point, hreachable, hrebinds, hlater⟩ := hrewrites.exists_keeps (hinside.reachable ht)
    have hlast : Keeps t.yield.values t.after outputs d :=
      keeps_of_arrives_all harrives t.runs (hinside.isComment_eq_false hrewrites) hruns
    have hall := (hlater.frame held).trans (hinside.keeps.trans hlast)
    have hsize : point.wires.size < UInt32.size := by
      have hle := hall.size_le
      obtain ⟨_, _, _, _, heq⟩ := assign_eq r.name r.new point
      rw [heq] at hle
      exact Nat.lt_of_le_of_lt hle hsmall
    have hknown : r.old ∈ point.wires.ids :=
      hreachable.sound.bound point.scope List.mem_cons_self _ (Bindings.mem_of_find? hrebinds.bound)
    have hgone := gone_assign (hreachable.numbered hsize) hrebinds.named hrebinds.bound hne hknown
    refine hall.gone hsmall r.old hgone ?_
    rw [List.mem_append, not_or]
    exact hpending

end Expansion

/-! ## Netlists of descriptions -/

namespace Netlist

open Expansion

/-- An assignment that rebinds a name from a wire to another takes the wire out of use
for good, unless the expansion holds the wire back meanwhile. -/
theorem not_mem_mentioned_of_rebinding {limit : UInt64} {nodes : List Node} {n : Netlist}
    {r : Rebinding} {pending : List WireId} (hn : ofForest limit nodes = .ok n)
    (hsmall : n.wires.size < UInt32.size) (hr : Performs limit nodes r pending)
    (hne : r.old ≠ r.new) (hpending : r.old ∉ pending) : r.old ∉ n.mentioned := by
  obtain ⟨outputs, d, hd, rfl⟩ := eq_linkContexts_of_ofForest hn
  obtain ⟨hgone, houtputs⟩ := hr.gone hd hsmall hne hpending
  intro hmem
  rcases List.mem_append.1 hmem with hmem | hmem
  · obtain ⟨gate, hgate, hpin⟩ := List.mem_flatMap.1 hmem
    exact hgone.gates gate (List.mem_reverse.1 hgate) hpin
  · exact houtputs hmem

/-- A name that is assigned twice, the second time together with another. -/
def reassigned : List Node :=
  let pos := Position.start
  [.assignment pos ["a"], .literal pos true, .assignment pos ["a", "b"], .literal pos false,
    .literal pos true, .identifier pos "a"]

/-- The value for the other name is held back, and the first wire is not. -/
theorem not_mem_mentioned_reassigned :
    ∃ n, ofForest 1 reassigned = .ok n ∧ n.wires.size = 3 ∧
      Performs 1 reassigned ⟨"a", ⟨1⟩, ⟨2⟩, true⟩ [⟨3⟩] ∧ ⟨1⟩ ∉ n.mentioned := by
  have hbuilt : (ofForest 1 reassigned).toOption.map (fun n => n.wires.size) = some 3 := by
    decide +kernel
  have hbound : nestingBound 1 reassigned = 2 := by decide +kernel
  let pos := Position.start
  let before := (Draft.empty.place .source "" [] 1 .root).2.assign "a" ⟨1⟩
  let mid := ((before.place .ground "" [] 1 .root).2.place .source "" [] 1 .root).2
  have hfirst : Runs (step 1 2 (.assignment pos ["a"]) (reassigned.drop 1)) .empty ⟨2, []⟩
      before := rfl
  have hvalues : Runs (valuesEach (step 1 1) [.literal pos false, .literal pos true]) before
      [[⟨2⟩], [⟨3⟩]] mid := rfl
  have hsecond : Runs (step 1 2 (.assignment pos ["a", "b"]) (reassigned.drop 3)) before ⟨3, []⟩
      (mid.assignAll [("a", ⟨2⟩), ("b", ⟨3⟩)]) := rfl
  have hrebinds : (mid.assignAll []).Rebinds ⟨"a", ⟨1⟩, ⟨2⟩, true⟩ := ⟨by decide, rfl, rfl⟩
  have hperforms : Performs 1 reassigned ⟨"a", ⟨1⟩, ⟨2⟩, true⟩ [⟨3⟩] :=
    .intro hbound.symm (.next hfirst .here) .here (.intro hsecond hvalues rfl hrebinds)
  cases hn : ofForest 1 reassigned with
  | error halt =>
    rw [hn] at hbuilt
    exact absurd hbuilt nofun
  | ok n =>
    rw [hn] at hbuilt
    have hwires : n.wires.size = 3 := Option.some.inj hbuilt
    have hsmall : n.wires.size < UInt32.size := by
      rw [hwires]
      decide
    exact ⟨n, rfl, hwires, hperforms,
      not_mem_mentioned_of_rebinding hn hsmall hperforms (by decide) (by decide)⟩

/-- A name that is assigned a second time together with another, which gets its old
value. -/
def swapped : List Node :=
  let pos := Position.start
  [.assignment pos ["a"], .literal pos true, .assignment pos ["a", "b"], .literal pos false,
    .identifier pos "a", .identifier pos "b"]

/-- The old wire is held back for the other name.  It gets into the outputs, where no
gate drives it any more. -/
theorem outputs_swapped :
    Performs 1 swapped ⟨"a", ⟨1⟩, ⟨2⟩, true⟩ [⟨1⟩] ∧
      (ofForest 1 swapped).toOption.map (fun n => (n.outputs, n.drivers ⟨1⟩)) =
        some ([⟨1⟩], []) := by
  have hbound : nestingBound 1 swapped = 2 := by decide +kernel
  let pos := Position.start
  let before := (Draft.empty.place .source "" [] 1 .root).2.assign "a" ⟨1⟩
  let mid := (before.place .ground "" [] 1 .root).2
  have hfirst : Runs (step 1 2 (.assignment pos ["a"]) (swapped.drop 1)) .empty ⟨2, []⟩
      before := rfl
  have hvalues : Runs (valuesEach (step 1 1) [.literal pos false, .identifier pos "a"]) before
      [[⟨2⟩], [⟨1⟩]] mid := rfl
  have hsecond : Runs (step 1 2 (.assignment pos ["a", "b"]) (swapped.drop 3)) before ⟨3, []⟩
      (mid.assignAll [("a", ⟨2⟩), ("b", ⟨1⟩)]) := rfl
  have hrebinds : (mid.assignAll []).Rebinds ⟨"a", ⟨1⟩, ⟨2⟩, true⟩ := ⟨by decide, rfl, rfl⟩
  refine ⟨?_, by decide +kernel⟩
  exact .intro hbound.symm (.next hfirst .here) .here (.intro hsecond hvalues rfl hrebinds)

end Netlist

end Gatework
