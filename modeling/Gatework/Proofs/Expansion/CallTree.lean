import Gatework.Proofs.Expansion.Composition
import Gatework.Proofs.Expansion.Extension
import Gatework.Proofs.Expansion.WellFormed
import Mathlib.Logic.Function.Iterate

/-!
# The tree of invocations

The contexts of a netlist are numbered from one on in the order of the invocations, and
their parents make them a forest whose roots are the invocations that no block makes.

There are six groups.

* `Netlist.CallTree` is the property.
* `Draft.FramesNumbered` says that the invocations of a draft are numbered in order.
* `Draft.Nested` says that the open scopes are those of invocations inside each other,
  and that each invocation has been noted after the one that makes it.
* `Draft.Tallies` says that invocations are noted just as blocks are expanded, which the
  pieces of an expansion do.
* `Netlist.Recorded` says of the contexts of a netlist that they are in order.  Linking
  them makes the tree (`Recorded.callTree`).
* `callTree_ofForest` is the result for netlists of descriptions.
-/

namespace Gatework

namespace Netlist

/-! ## The property -/

/-- The context from which a context has been invoked.  The root stays where it is. -/
def caller (n : Netlist) (id : ContextId) : ContextId :=
  ((n.context? id).map Context.parent).getD .root

/-- Contexts that are the tree of the invocations. -/
structure CallTree (limit : UInt64) (n : Netlist) : Prop where
  numbers : n.contexts.map (fun context => context.id.number.toNat) =
    List.range' 1 n.contexts.length
  top : ∀ context ∈ n.contexts, context.depth = 1 ↔ context.parent = .root
  /-- The caller of a context comes before it. -/
  inner : ∀ front context back, n.contexts = front ++ context :: back → context.parent ≠ .root →
    ∃ parent ∈ front, parent.id = context.parent ∧ context.depth = parent.depth + 1
  below : limit ≠ 0 → ∀ context ∈ n.contexts, context.depth < limit.toNat
  children : ∀ context ∈ n.contexts, context.children =
    (n.contexts.filter fun child => child.parent = context.id).map Context.id
  ascending : ∀ context ∈ n.contexts, context.children.Pairwise (· < ·)
  /-- The depth of a context is the number of steps from it to the root. -/
  depths : ∀ context ∈ n.contexts, ∀ steps,
    n.caller^[steps] context.id = .root ↔ context.depth ≤ steps

end Netlist

/-- Whether an invocation comes from the description itself or from an earlier one, within
a limit on the open scopes. -/
structure Context.Called (limit : UInt64) (earlier : List Context) (context : Context) : Prop where
  caller : context.depth = 1 ∧ context.parent = .root ∨
    ∃ parent ∈ earlier, parent.id = context.parent ∧ context.depth = parent.depth + 1
  below : limit ≠ 0 → context.depth < limit.toNat

namespace Draft

variable {q : Node → Bool} {limit : UInt64} {d d' : Draft}

/-! ## The numbers of invocations -/

/-- A draft whose invocations have the numbers from one on, the latest one the last
number. -/
structure FramesNumbered (d : Draft) : Prop where
  last : d.lastFrame.toNat = d.contexts.length
  numbers : d.contexts.map (fun context => context.id.number.toNat) =
    (List.range' 1 d.contexts.length).reverse

theorem framesNumbered_empty : FramesNumbered empty := ⟨rfl, rfl⟩

theorem Change.framesNumbered (h : Change q limit d d') (hn : d.FramesNumbered)
    (hsmall : d'.contexts.length < UInt32.size) : d'.FramesNumbered := by
  rcases h.contexts_cases with ⟨hcontexts, hlast⟩ | ⟨name, -, rfl⟩
  · exact ⟨by rw [hlast, hcontexts, hn.last], by rw [hcontexts, hn.numbers]⟩
  · obtain ⟨hnumber, hnumbers⟩ := numbers_next hn.last hsmall
    rw [← hn.numbers] at hnumbers
    exact ⟨hnumber, hnumbers⟩

theorem Reaches.framesNumbered (h : Reaches q limit empty d)
    (hsmall : d.contexts.length < UInt32.size) : d.FramesNumbered := by
  induction h with
  | refl => exact framesNumbered_empty
  | @tail between last _ hchange ih =>
    have hle : between.contexts.length ≤ last.contexts.length := by
      rcases hchange.contexts_cases with ⟨hcontexts, -⟩ | ⟨name, -, rfl⟩
      · exact Nat.le_of_eq (congrArg List.length hcontexts).symm
      · exact Nat.le_succ _
    exact hchange.framesNumbered (ih (by omega)) hsmall

/-! ## Nested invocations -/

/-- Whether a context is that of a scope with so many scopes around it. -/
def Opens (id : ContextId) (around : Nat) (d : Draft) : Prop :=
  around = 0 ∧ id = .root ∨ ∃ context ∈ d.contexts, context.id = id ∧ context.depth = around

/-- A draft whose open scopes and invocations are nested. -/
structure Nested (limit : UInt64) (d : Draft) : Prop where
  scopes : ∀ id around, id :: around <:+ d.scopes.map Scope.id → d.Opens id around.length
  contexts : ∀ context earlier, context :: earlier <:+ d.contexts →
    context.Called limit earlier

theorem nested_empty : Nested limit empty where
  scopes := by
    intro id around h
    obtain ⟨rfl, rfl⟩ : id = .root ∧ around = [] := by
      rcases List.suffix_cons_iff.1 h with heq | hnil
      · exact List.cons.inj heq
      · exact absurd (List.suffix_nil.1 hnil) nofun
    exact Or.inl ⟨rfl, rfl⟩
  contexts := fun context earlier h => absurd (List.suffix_nil.1 h) nofun

/-- An invocation comes from the open scope. -/
theorem Nested.called (h : d.Nested limit) {frame : ContextId} {name : String}
    (hdepth : Expansion.exceeds limit (d.scopes.length + 1) = false) :
    Context.Called limit d.contexts ⟨frame, name, d.scopes.length, d.scope.id, []⟩ := by
  constructor
  · rcases h.scopes d.scope.id (d.outer.map Scope.id) (List.suffix_refl _) with
      ⟨hnone, hroot⟩ | ⟨context, hcontext, hid, hdepth⟩
    · rw [List.length_map] at hnone
      exact Or.inl ⟨congrArg (· + 1) hnone, hroot⟩
    · rw [List.length_map] at hdepth
      exact Or.inr ⟨context, hcontext, hid, congrArg (· + 1) hdepth.symm⟩
  · intro hlimit
    exact Expansion.le_of_exceeds_eq_false hlimit hdepth

theorem Change.nested (h : Change q limit d d') (hd : d.Nested limit) : d'.Nested limit := by
  have hopens {id : ContextId} {around : Nat} (hid : d.Opens id around) : d'.Opens id around :=
    hid.imp_right fun ⟨context, hcontext, hsame⟩ =>
      ⟨context, h.mem_contexts context hcontext, hsame⟩
  constructor
  · intro id around hsuffix
    rcases h.ids_scopes_cases with hids | ⟨context, hcontext, hdepth, hids⟩
    · exact hopens (hd.scopes id around (hsuffix.trans hids))
    · rw [hids] at hsuffix
      rcases List.suffix_cons_iff.1 hsuffix with heq | hold
      · obtain ⟨rfl, rfl⟩ := List.cons.inj heq
        refine Or.inr ⟨context, h.mem_contexts context hcontext, rfl, ?_⟩
        rw [List.length_map, hdepth]
      · exact hopens (hd.scopes id around hold)
  · intro context earlier hsuffix
    rcases h.contexts_cases with ⟨hcontexts, -⟩ | ⟨name, hdepth, rfl⟩
    · exact hd.contexts context earlier (hcontexts ▸ hsuffix)
    · rcases List.suffix_cons_iff.1 hsuffix with heq | hold
      · obtain ⟨rfl, rfl⟩ := List.cons.inj heq
        exact hd.called hdepth
      · exact hd.contexts context earlier hold

theorem Reaches.nested (h : Reaches q limit empty d) : d.Nested limit := by
  induction h with
  | refl => exact nested_empty
  | tail _ hchange ih => exact hchange.nested ih

/-! ## Expanded blocks -/

/-- The invocations that a draft has noted, by number and name. -/
def noted (d : Draft) : List (ContextId × String) :=
  d.contexts.map fun context => (context.id, context.name)

/-- The blocks that have been expanded, by the number of their invocation and by name. -/
def finished (d : Draft) : List (ContextId × String) :=
  d.expanded.map fun expanded => (expanded.frame, expanded.block.name)

/-- From one draft to another, invocations have been noted just as blocks have been
expanded. -/
def Tallies (d d' : Draft) : Prop :=
  ∀ key, d'.noted.count key + d.finished.count key = d.noted.count key + d'.finished.count key

theorem SameLog.tallies (h : SameLog d d') : Tallies d d' := by
  intro key
  rw [noted, noted, finished, finished, h.contexts, h.expanded]

theorem Tallies.trans {d'' : Draft} (h : Tallies d d') (h' : Tallies d' d'') : Tallies d d'' := by
  intro key
  have hfirst := h key
  have hlast := h' key
  omega

theorem tallies_assignAll (pairs : List (String × WireId)) (d : Draft) :
    Tallies d (d.assignAll pairs) := by
  induction pairs generalizing d with
  | nil => exact (SameLog.refl d).tallies
  | cons pair pairs ih =>
    have hfirst : Tallies d (d.assign pair.1 pair.2) := by
      obtain ⟨_, _, _, _, heq⟩ := assign_eq pair.1 pair.2 d
      rw [heq]
      exact fun _ => rfl
    exact hfirst.trans (ih _)

end Draft

namespace Expansion

open Draft

variable {limit : UInt64} {step : Step} {d d' : Draft}

/-- The invocation is noted before the body of the block, and the block after it. -/
theorem BlockRun.tallies {name : String} {args : List Node} {outputs : List WireId}
    (run : BlockRun limit step name args d outputs d') (hbody : Tallies run.entered run.inner) :
    Tallies run.argued d' := by
  have hinner : Tallies run.announced run.inner := run.sameLog_entered.tallies.trans hbody
  have hbefore : run.announced.noted = (run.frame, run.call.block.name) :: run.argued.noted ∧
      run.announced.finished = run.argued.finished := ⟨rfl, rfl⟩
  have hafter : (run.inner.noteExpanded ⟨run.frame, run.call.block, outputs⟩).finished =
      (run.frame, run.call.block.name) :: run.inner.finished := rfl
  intro key
  have hkey := hinner key
  have hlast : _ + _ = run.inner.noted.count key + _ := run.sameLog_last.tallies key
  rw [hbefore.1, hbefore.2, List.count_cons] at hkey
  rw [hafter, List.count_cons] at hlast
  omega

theorem composes_tallies (limit : UInt64) : Composes limit Tallies where
  refl := fun d => (SameLog.refl d).tallies
  trans := fun _ _ _ => Tallies.trans
  counted := fun node d => (sameLog_counted node d).tallies
  place := fun _ _ _ _ _ _ _ _ hplace => (sameLog_place hplace).tallies
  define := fun block d => (sameLog_define block d).tallies
  name := fun _ _ _ _ hwire => (sameLog_wireOf hwire).tallies
  assign := tallies_assignAll
  block := fun _ _ _ _ _ _ run _ _ hbody hpassed =>
    run.tallies (hbody.trans (sameLog_passOutputs hpassed).tallies)

end Expansion

/-- In the end there is one noted invocation for each block that has been expanded. -/
theorem Draft.perm_finished_of_ofForest {limit : UInt64} {nodes : List Node}
    {outputs : List WireId} {d : Draft} (h : Draft.ofForest limit nodes = .ok (outputs, d)) :
    d.noted.Perm d.finished := by
  have htallies : Tallies empty d :=
    (Expansion.composes_tallies limit).expandAll h
  refine List.perm_iff_count.2 fun key => ?_
  simpa [noted, finished, empty] using htallies key

namespace Netlist

variable {limit : UInt64} {n : Netlist}

/-! ## Recorded contexts -/

/-- A netlist whose contexts have been noted one after the other. -/
structure Recorded (limit : UInt64) (n : Netlist) : Prop where
  numbers : n.contexts.map (fun context => context.id.number.toNat) =
    List.range' 1 n.contexts.length
  called : ∀ front context back, n.contexts = front ++ context :: back →
    context.Called limit front

theorem recorded_of_reaches {q : Node → Bool} {d : Draft} (h : Draft.Reaches q limit .empty d)
    (hsmall : d.contexts.length < UInt32.size) (outputs : List WireId) :
    Recorded limit { d.netlist with outputs } where
  numbers := by
    have hnumbers := congrArg List.reverse (h.framesNumbered hsmall).numbers
    rw [← List.map_reverse, List.reverse_reverse, ← List.length_reverse] at hnumbers
    exact hnumbers
  called := by
    intro front context back heq
    have hcontexts : d.contexts = back.reverse ++ context :: front.reverse := by
      have hreverse := congrArg List.reverse (show d.contexts.reverse = _ from heq)
      simpa using hreverse
    have hsuffix : context :: front.reverse <:+ d.contexts := ⟨back.reverse, hcontexts.symm⟩
    obtain ⟨hcaller, hbelow⟩ := h.nested.contexts context front.reverse hsuffix
    refine ⟨hcaller.imp_right ?_, hbelow⟩
    rintro ⟨parent, hparent, hcalled⟩
    exact ⟨parent, List.mem_reverse.1 hparent, hcalled⟩

namespace Recorded

/-- Later contexts have greater numbers. -/
theorem sorted (h : n.Recorded limit) : n.contexts.Pairwise fun a b => a.id < b.id := by
  have hnumbers : (n.contexts.map fun context => context.id.number.toNat).Pairwise (· < ·) := by
    rw [h.numbers]
    exact List.pairwise_lt_range' ..
  exact (List.pairwise_map.1 hnumbers).imp fun hlt => UInt32.lt_iff_toNat_lt.2 hlt

theorem id_ne_root (h : n.Recorded limit) {context : Context} (hcontext : context ∈ n.contexts) :
    context.id ≠ .root := by
  intro hroot
  have hmem : context.id.number.toNat ∈ List.range' 1 n.contexts.length := by
    rw [← h.numbers]
    exact List.mem_map_of_mem hcontext
  rw [hroot, List.mem_range'_1] at hmem
  exact absurd hmem.1 (by decide)

theorem nodup (h : n.Recorded limit) : (n.contexts.map Context.id).Nodup := by
  refine List.pairwise_map.2 (h.sorted.imp fun {a b} hlt heq => ?_)
  rw [heq] at hlt
  exact UInt32.lt_irrefl _ hlt

/-- The caller of a context is its parent. -/
theorem caller_id (h : n.Recorded limit) {context : Context} (hcontext : context ∈ n.contexts) :
    n.caller context.id = context.parent := by
  rw [caller, (Netlist.context?_eq_some_iff h.nodup).2 ⟨hcontext, rfl⟩]
  rfl

theorem caller_root (h : n.Recorded limit) : n.caller .root = .root := by
  have hnone : n.context? .root = none := by
    refine List.find?_eq_none.2 fun context hcontext => ?_
    simpa using h.id_ne_root hcontext
  rw [caller, hnone]
  rfl

/-- A context is not deep, or its parent is less deep by one. -/
theorem parent_cases (h : n.Recorded limit) {context : Context} (hcontext : context ∈ n.contexts) :
    context.depth = 1 ∧ context.parent = .root ∨
      ∃ parent ∈ n.contexts, parent.id = context.parent ∧ context.depth = parent.depth + 1 := by
  obtain ⟨front, back, heq⟩ := List.append_of_mem hcontext
  refine (h.called front context back heq).caller.imp_right ?_
  rintro ⟨parent, hparent, hcalled⟩
  exact ⟨parent, heq ▸ List.mem_append_left _ hparent, hcalled⟩

theorem depth_pos (h : n.Recorded limit) {context : Context} (hcontext : context ∈ n.contexts) :
    0 < context.depth := by
  rcases h.parent_cases hcontext with ⟨hdepth, -⟩ | ⟨parent, -, -, hdepth⟩ <;> omega

theorem depth_eq_one_iff (h : n.Recorded limit) {context : Context}
    (hcontext : context ∈ n.contexts) : context.depth = 1 ↔ context.parent = .root := by
  rcases h.parent_cases hcontext with ⟨hdepth, hroot⟩ | ⟨parent, hparent, hid, hdepth⟩
  · exact iff_of_true hdepth hroot
  · have hpos := h.depth_pos hparent
    exact iff_of_false (by omega) (hid ▸ h.id_ne_root hparent)

/-- The callers of a context come to the root after as many steps as it is deep. -/
theorem iterate_caller_eq_root_iff (h : n.Recorded limit) {context : Context}
    (hcontext : context ∈ n.contexts) (steps : Nat) :
    n.caller^[steps] context.id = .root ↔ context.depth ≤ steps := by
  induction steps generalizing context with
  | zero =>
    have hpos := h.depth_pos hcontext
    exact iff_of_false (h.id_ne_root hcontext) (by omega)
  | succ steps ih =>
    rw [Function.iterate_succ_apply, h.caller_id hcontext]
    rcases h.parent_cases hcontext with ⟨hdepth, hroot⟩ | ⟨parent, hparent, hid, hdepth⟩
    · rw [hroot, Function.iterate_fixed h.caller_root]
      exact iff_of_true rfl (by omega)
    · rw [← hid, ih hparent, hdepth]
      exact Nat.succ_le_succ_iff.symm

/-- Linking changes nothing but children. -/
theorem linkContexts (h : n.Recorded limit) : n.linkContexts.Recorded limit := by
  have hlinked := contexts_linkContexts h.nodup fun context => h.id_ne_root
  constructor
  · rw [hlinked, List.map_map, List.length_map]
    exact h.numbers
  · intro front context back heq
    rw [hlinked, List.map_eq_append_iff] at heq
    obtain ⟨front', back', heq, rfl, hback⟩ := heq
    obtain ⟨context', back', rfl, rfl, -⟩ := List.map_eq_cons_iff.1 hback
    obtain ⟨hcaller, hbelow⟩ := h.called front' context' back' heq
    refine ⟨hcaller.imp_right ?_, hbelow⟩
    rintro ⟨parent, hparent, hcalled⟩
    exact ⟨_, List.mem_map_of_mem hparent, hcalled⟩

/-- After linking, the children of a context are those that name it as their parent. -/
theorem children_linkContexts (h : n.Recorded limit) {context : Context}
    (hcontext : context ∈ n.linkContexts.contexts) : context.children =
      (n.linkContexts.contexts.filter fun child => child.parent = context.id).map Context.id := by
  have hlinked := contexts_linkContexts h.nodup fun context => h.id_ne_root
  rw [hlinked] at hcontext ⊢
  obtain ⟨before, hbefore, rfl⟩ := List.mem_map.1 hcontext
  rw [List.filter_map, List.map_map]
  rfl

/-- Recorded contexts that are linked are the tree of the invocations. -/
theorem callTree (h : n.Recorded limit) : CallTree limit n.linkContexts where
  numbers := h.linkContexts.numbers
  top := fun context hcontext => h.linkContexts.depth_eq_one_iff hcontext
  inner := by
    intro front context back heq hparent
    exact (h.linkContexts.called front context back heq).caller.resolve_left
      fun htop => hparent htop.2
  below := by
    intro hlimit context hcontext
    obtain ⟨front, back, heq⟩ := List.append_of_mem hcontext
    exact (h.linkContexts.called front context back heq).below hlimit
  children := fun context hcontext => h.children_linkContexts hcontext
  ascending := by
    intro context hcontext
    rw [h.children_linkContexts hcontext, List.pairwise_map]
    exact h.linkContexts.sorted.filter _
  depths := fun context hcontext => h.linkContexts.iterate_caller_eq_root_iff hcontext

end Recorded

/-! ## Netlists of descriptions -/

/-- With fewer invocations than numbers, the contexts of the netlist of a description are
the tree of its invocations.  There is one for each block that the expansion has expanded. -/
theorem callTree_ofForest {nodes : List Node} (h : ofForest limit nodes = .ok n)
    (hsmall : n.contexts.length < UInt32.size) :
    CallTree limit n ∧ ∃ outputs d, Draft.ofForest limit nodes = .ok (outputs, d) ∧
      (n.contexts.map fun context => (context.id, context.name)).Perm d.finished := by
  obtain ⟨outputs, d, hd, rfl⟩ := eq_linkContexts_of_ofForest h
  have hreaches := (Draft.leads_ofForest (Node.allIn_true nodes) hd).reaches
  have hlength := congrArg List.length (map_id_linkContexts { d.netlist with outputs })
  rw [List.length_map, List.length_map] at hlength
  rw [hlength] at hsmall
  have hsmall' : d.contexts.length < UInt32.size := by
    rw [← List.length_reverse]
    exact hsmall
  have hnoted : { d.netlist with outputs }.linkContexts.contexts.map
      (fun context : Context => (context.id, context.name)) = d.noted.reverse := by
    rw [map_linkContexts fun _ _ => rfl]
    exact List.map_reverse
  refine ⟨(recorded_of_reaches hreaches hsmall' outputs).callTree, outputs, d, hd, ?_⟩
  rw [hnoted]
  exact (List.reverse_perm _).trans (Draft.perm_finished_of_ofForest hd)

/-- A block inside another, which invokes it in a group, as an argument and to return a
value. -/
def invoking : List Node :=
  let pos := Position.start
  let name := Node.identifier pos
  [.block pos "outer" ["x"] 1
      [.block pos "inner" ["y"] 1 [.returns pos, .negation pos (some (name "y"))],
        .group pos [.invocation pos "inner" [name "x"]],
        .returns pos, .invocation pos "inner" [.invocation pos "inner" [name "x"]]],
    .invocation pos "outer" [.group pos [.invocation pos "outer" [.literal pos true]]]]

/-- The block invokes the one inside it three times, whenever it is invoked. -/
theorem callTree_invoking : ∃ n, ofForest 3 invoking = .ok n ∧
    n.contexts.map (fun context => (context.parent.number, context.depth)) =
      [(0, 1), (1, 2), (1, 2), (1, 2), (0, 1), (5, 2), (5, 2), (5, 2)] ∧
    CallTree 3 n ∧ ∃ outputs d, Draft.ofForest 3 invoking = .ok (outputs, d) ∧
      (n.contexts.map fun context => (context.id, context.name)).Perm d.finished := by
  have hbuilt : (ofForest 3 invoking).toOption.map
      (fun n => n.contexts.map fun context => (context.parent.number, context.depth)) =
        some [(0, 1), (1, 2), (1, 2), (1, 2), (0, 1), (5, 2), (5, 2), (5, 2)] := by
    decide +kernel
  obtain ⟨n, hn, hcontexts⟩ := exists_of_toOption_map hbuilt
  have hlength := congrArg List.length hcontexts
  rw [List.length_map] at hlength
  refine ⟨n, hn, hcontexts, callTree_ofForest hn ?_⟩
  rw [hlength]
  decide

end Netlist

end Gatework
