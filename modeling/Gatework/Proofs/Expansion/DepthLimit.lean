import Gatework.Proofs.Expansion.Extension
import Gatework.Proofs.Expansion.Trace

/-!
# The limit on open scopes

With a limit on the open scopes, every expansion ends.  A looser limit changes nothing
but the expansions that the first one stops.

There are seven groups.

* `Draft.Confined` says how many scopes are open, and how high the bodies of their
  blocks are.
* `Ends` says of a computation that no bound on the descent stops it, and how many
  scopes it leaves open.
* The pieces of the expansion.  A step that copes with nodes of some height makes
  pieces that end.
* Nodes.  `copes_step` ties the recursion by induction on the bound of the descent: each
  open scope leaves less room for others, and within a scope the nodes get lower.
* The siblings that a node takes, itself among them.
* Whole descriptions, whose expansion ends if there is a limit (`ofForest_ends`).
* Looser limits, which leave alone what a limit lets through (`ofForest_of_looser`).
-/

namespace Gatework

/-! ## Confined drafts -/

theorem Node.height_le_heightAll {node : Node} {nodes : List Node} (h : node ∈ nodes) :
    node.height ≤ heightAll nodes := by
  induction nodes with
  | nil => exact absurd h List.not_mem_nil
  | cons first nodes ih =>
    rcases List.mem_cons.1 h with rfl | h
    · exact Nat.le_max_left _ _
    · exact Nat.le_trans (ih h) (Nat.le_max_right _ _)

namespace Draft

/-- A draft with so many open scopes, whose blocks have bodies that are not too high. -/
structure Confined (height level : Nat) (d : Draft) : Prop where
  level : d.scopes.length = level
  bodies : ∀ scope ∈ d.scopes, ∀ block ∈ scope.blocks.map Definition.block,
    Node.heightAll block.body < height

variable {height level : Nat} {d d' : Draft}

theorem confined_empty : Confined height 1 empty := ⟨rfl, by simp [empty, scopes, Scope.root]⟩

namespace Confined

theorem level_pos (h : d.Confined height level) : 0 < level := h.level ▸ Nat.succ_pos _

/-- Drafts whose open scopes have the same blocks are confined alike. -/
theorem of_blocks (h : d.Confined height level)
    (heq : d'.scopes.map (fun scope => scope.blocks.map Definition.block) =
      d.scopes.map fun scope => scope.blocks.map Definition.block) :
    d'.Confined height level := by
  constructor
  · have hlength := congrArg List.length heq
    rw [List.length_map, List.length_map] at hlength
    rw [hlength, h.level]
  · intro scope hscope
    have hmem := List.mem_map_of_mem (f := fun scope => scope.blocks.map Definition.block) hscope
    rw [heq] at hmem
    obtain ⟨other, hother, hsame⟩ := List.mem_map.1 hmem
    rw [← hsame]
    exact h.bodies other hother

theorem assignAll (h : d.Confined height level) (pairs : List (String × WireId)) :
    (d.assignAll pairs).Confined height level := by
  induction pairs generalizing d with
  | nil => exact h
  | cons pair pairs ih =>
    exact ih (h.of_blocks (map_scopes_assign (fun _ _ _ => rfl) (fun _ _ _ => rfl) ..))

theorem define (h : d.Confined height level) {block : Block}
    (hbody : Node.heightAll block.body < height) : (d.define block).Confined height level := by
  refine ⟨h.level, fun scope hscope other hother => ?_⟩
  rcases List.mem_cons.1 hscope with rfl | hscope
  · have hblocks : other ∈ (d.scope.blocks ++ [(⟨block, 0⟩ : Definition)]).map
        Definition.block := hother
    rw [List.map_append, List.mem_append] at hblocks
    rcases hblocks with hold | hnew
    · exact h.bodies d.scope List.mem_cons_self other hold
    · rw [List.mem_singleton.1 hnew]
      exact hbody
  · exact h.bodies scope (List.mem_cons_of_mem _ hscope) other hother

/-- A call counts, and gives one of the blocks. -/
theorem call (h : d.Confined height level) {name : String} {call : Call Draft}
    (hcall : d.call? name = some call) :
    call.holder.Confined height level ∧ Node.heightAll call.block.body < height := by
  obtain ⟨scope, outer, heq, hscopes, hblock⟩ := call?_eq_some hcall
  constructor
  · have hblocks := congrArg
      (List.map fun scope : Scope => scope.blocks.map Definition.block) hscopes
    simp only [List.map_map, Function.comp_def, Scope.uncounted] at hblocks
    rw [heq]
    exact h.of_blocks hblocks
  · obtain ⟨holder, hholder, hfind⟩ := List.exists_of_findSome?_eq_some hblock
    exact h.bodies holder hholder _ (List.mem_of_find?_eq_some hfind)

theorem enter (h : d.Confined height level) {scope : Scope} (hblocks : scope.blocks = []) :
    (d.enter scope).Confined height (level + 1) := by
  refine ⟨congrArg (· + 1) h.level, fun other hother block hblock => ?_⟩
  rcases List.mem_cons.1 hother with rfl | hother
  · have hnone : block ∈ other.blocks.map Definition.block := hblock
    rw [hblocks] at hnone
    exact absurd hnone List.not_mem_nil
  · exact h.bodies other hother block hblock

theorem leave (h : d.Confined height (level + 1)) (hlevel : 0 < level) :
    d.leave.Confined height level := by
  have hlength : d.outer.length = level := Nat.succ.inj h.level
  unfold Draft.leave
  split
  · next houter =>
    rw [houter, List.length_nil] at hlength
    omega
  · next scope outer houter =>
    rw [houter] at hlength
    refine ⟨hlength, fun other hother => h.bodies other ?_⟩
    rw [scopes, houter]
    exact List.mem_cons_of_mem _ hother

end Confined

end Draft

namespace Expansion

variable {α β : Type} {height level level' level'' : Nat}

/-! ## Computations that end -/

/-- From a draft that is confined at the first level, a computation is not stopped for
its descent, and if it does not halt it leaves a draft confined at the last level. -/
def Ends (height level : Nat) (x : Expansion α) (level' : Nat) : Prop :=
  ∀ d : Draft, d.Confined height level → x.run d ≠ .error .unfinished ∧
    ∀ a d', Runs x d a d' → d'.Confined height level'

theorem ends_pure (a : α) : Ends height level (pure a) level := by
  refine fun d hd => ⟨nofun, fun b d' h => ?_⟩
  obtain ⟨-, rfl⟩ := runs_pure.1 h
  exact hd

theorem ends_fail (error : ExpansionError) :
    Ends height level (fail error : Expansion α) level' :=
  fun _ _ => ⟨nofun, fun _ _ h => absurd h runs_fail⟩

theorem Ends.bind {x : Expansion α} {f : α → Expansion β} (h : Ends height level x level')
    (hrest : ∀ a, Ends height level' (f a) level'') : Ends height level (x >>= f) level'' := by
  intro d hd
  obtain ⟨hends, hleaves⟩ := h d hd
  constructor
  · rw [StateT.run_bind]
    cases hx : x.run d with
    | error halt =>
      have hhalt : halt ≠ .unfinished := fun heq => hends (heq ▸ hx)
      exact fun heq => hhalt (Except.error.inj heq)
    | ok result => exact (hrest result.1 result.2 (hleaves _ _ hx)).1
  · intro b d' hboth
    obtain ⟨a, between, hfirst, hlast⟩ := runs_bind.1 hboth
    exact (hrest a between (hleaves a between hfirst)).2 b d' hlast

theorem ends_get {f : Draft → Expansion α}
    (h : ∀ d : Draft, d.Confined height level → Ends height level (f d) level') :
    Ends height level (get >>= f) level' := fun d hd => h d hd d hd

theorem ends_set {d : Draft} (h : d.Confined height level') : Ends height level (set d) level' :=
  fun _ _ => ⟨nofun, fun _ _ hset => runs_set.1 hset ▸ h⟩

theorem ends_modify {f : Draft → Draft}
    (h : ∀ d : Draft, d.Confined height level → (f d).Confined height level') :
    Ends height level (modify f) level' :=
  fun d hd => ⟨nofun, fun _ _ hmodify => runs_modify.1 hmodify ▸ h d hd⟩

theorem ends_modifyGet {f : Draft → α × Draft}
    (h : ∀ d : Draft, d.Confined height level → (f d).2.Confined height level') :
    Ends height level (modifyGet f) level' := by
  refine fun d hd => ⟨nofun, fun a d' hmodify => ?_⟩
  have hlast := h d hd
  rwa [runs_modifyGet.1 hmodify] at hlast

theorem ends_ite {p : Prop} [Decidable p] {x y : Expansion α} (h : p → Ends height level x level')
    (h' : ¬p → Ends height level y level') : Ends height level (if p then x else y) level' := by
  split
  · next hp => exact h hp
  · next hp => exact h' hp

theorem ends_newWire (desc : Option String) : Ends height level (newWire desc) level :=
  ends_modifyGet fun _ hd => hd.of_blocks rfl

theorem ends_newWires (count : Nat) : Ends height level (newWires count) level := by
  induction count with
  | zero => exact ends_pure _
  | succ count ih => exact (ends_newWire none).bind fun _ => ih.bind fun _ => ends_pure _

theorem ends_newGate (kind : GateKind) (label : String) (inputs : List WireId)
    (context : ContextId) : Ends height level (newGate kind label inputs context) level := by
  refine (ends_newWire none).bind fun output => ?_
  exact .bind (ends_modify fun _ hd => hd.of_blocks rfl) fun _ => ends_pure _

theorem ends_gateHere (kind : GateKind) (inputs : List WireId) :
    Ends height level (gateHere kind inputs) level :=
  ends_get fun _ _ => (ends_newGate _ _ _ _).bind fun _ => ends_pure _

theorem ends_wireOf (name : String) : Ends height level (wireOf name) level := by
  refine ends_get fun d hd => ?_
  split
  · exact ends_pure _
  · refine (ends_newWire _).bind fun wire => ?_
    exact .bind (ends_modify fun _ hd => hd.of_blocks rfl) fun _ => ends_pure _

theorem ends_passInputs (block : Block) (count : Nat) (frame : ContextId) (bindings : Bindings)
    (passed : List ((Nat × WireId) × String)) :
    Ends height level (passInputs block count frame bindings passed) level := by
  induction passed generalizing bindings with
  | nil => exact ends_pure _
  | cons first rest ih =>
    obtain ⟨⟨place, wire⟩, param⟩ := first
    exact (ends_newGate _ _ _ _).bind fun bound => ih _

theorem ends_passOutputs (block : Block) (count : Nat) (frame : ContextId) (place : Nat)
    (wires : List WireId) :
    Ends height level (passOutputs block count frame place wires) level := by
  induction wires generalizing place with
  | nil => exact ends_pure _
  | cons wire rest ih =>
    exact (ends_newGate _ _ _ _).bind fun output => (ih _).bind fun more => ends_pure _

/-! ## Pieces of the expansion -/

/-- A step that ends on every node of a bounded height, whose siblings are lower. -/
def Copes (height level bound : Nat) (step : Step) : Prop :=
  ∀ (node : Node) (rest : List Node), Node.heightAll (node :: rest) ≤ height →
    node.height < bound → (∀ sibling ∈ rest, sibling.height + 1 < bound) →
      Ends height level (step node rest) level

section

variable {bound : Nat} {step : Step} {pos : Position} (hstep : Copes height level bound step)

include hstep

/-- A node by itself. -/
theorem Copes.alone {node : Node} (hheight : node.height ≤ height) (hbound : node.height < bound) :
    Ends height level (step node []) level := by
  refine hstep node [] ?_ hbound (List.forall_mem_nil _)
  rw [Node.heightAll, Node.heightAll]
  omega

/-- A node among siblings that are all lower. -/
theorem Copes.among {node : Node} {rest : List Node}
    (hheight : Node.heightAll (node :: rest) ≤ height)
    (hbound : Node.heightAll (node :: rest) + 1 < bound) :
    Ends height level (step node rest) level := by
  have hlower : ∀ other ∈ node :: rest, other.height + 1 < bound := fun other hother =>
    Nat.lt_of_le_of_lt (Nat.succ_le_succ (Node.height_le_heightAll hother)) hbound
  obtain ⟨hnode, hrest⟩ := List.forall_mem_cons.1 hlower
  exact hstep node rest hheight (Nat.lt_of_succ_lt hnode) hrest

theorem ends_operand {kind : TokenKind} {side : Side} {rhs : Option Node}
    (hheight : Node.heightOption rhs ≤ height) (hbound : Node.heightOption rhs < bound) :
    Ends height level (operand step kind side pos rhs) level := by
  cases rhs with
  | none => exact ends_fail _
  | some node =>
    refine (hstep.alone hheight hbound).bind fun yield => ?_
    split
    · exact ends_pure _
    · exact ends_fail _

theorem ends_valuesEach {nodes : List Node} (hheight : Node.heightAll nodes ≤ height)
    (hbound : Node.heightAll nodes < bound) : Ends height level (valuesEach step nodes) level := by
  induction nodes with
  | nil => exact ends_pure _
  | cons node rest ih =>
    rw [Node.heightAll] at hheight hbound
    refine (hstep.alone (by omega) (by omega)).bind fun yield => ?_
    exact (ih (by omega) (by omega)).bind fun more => ends_pure _

theorem ends_assignedValues {names : List String} {values : List WireId} {taken : Nat}
    {nodes : List Node} (hheight : Node.heightAll nodes ≤ height)
    (hbound : ∀ node ∈ nodes, node.height < bound) :
    Ends height level (assignedValues step pos names values taken nodes) level := by
  induction nodes generalizing values taken with
  | nil => exact ends_ite (fun _ => ends_fail _) fun _ => ends_pure _
  | cons node rest ih =>
    rw [Node.heightAll] at hheight
    obtain ⟨hnode, hrest⟩ := List.forall_mem_cons.1 hbound
    simp only [assignedValues]
    split
    · refine ends_ite (fun _ => ?_) fun _ => ends_fail _
      refine (hstep.alone (by omega) hnode).bind fun yield => ?_
      exact ends_ite (fun _ => ends_fail _) fun _ => ih (by omega) hrest
    · exact ends_pure _

theorem ends_assignment {names : List String} {rest : List Node}
    (hheight : Node.heightAll rest ≤ height) (hbound : ∀ node ∈ rest, node.height < bound) :
    Ends height level (assignment step pos names rest) level := by
  refine (ends_assignedValues hstep hheight hbound).bind fun yield => ?_
  exact (ends_modify fun _ hd => hd.assignAll _).bind fun _ => ends_pure _

theorem ends_returnedValues {block : Block} {values : List WireId} {taken : Nat}
    {nodes : List Node} (hheight : Node.heightAll nodes ≤ height)
    (hbound : ∀ node ∈ nodes, node.height < bound) :
    Ends height level (returnedValues step pos block values taken nodes) level := by
  induction nodes generalizing values taken with
  | nil => exact ends_ite (fun _ => ends_fail _) fun _ => ends_pure _
  | cons node rest ih =>
    rw [Node.heightAll] at hheight
    obtain ⟨hnode, hrest⟩ := List.forall_mem_cons.1 hbound
    refine ends_ite (fun _ => ?_) fun _ => ends_fail _
    refine (hstep.alone (by omega) hnode).bind fun yield => ?_
    exact ends_ite (fun _ => ends_fail _) fun _ => ih (by omega) hrest

theorem ends_blockReturn {rest : List Node} (hheight : Node.heightAll rest ≤ height)
    (hbound : ∀ node ∈ rest, node.height < bound) :
    Ends height level (blockReturn step pos rest) level := by
  refine ends_get fun d hd => ?_
  split
  · exact ends_returnedValues hstep hheight hbound
  · exact ends_fail _

theorem ends_invokeBuiltin {builtin : Builtin} {args : List Node}
    (hheight : Node.heightAll args ≤ height) (hbound : Node.heightAll args < bound) :
    Ends height level (invokeBuiltin step pos builtin args) level := by
  refine (ends_valuesEach hstep hheight hbound).bind fun arguments => ?_
  refine ends_ite (fun _ => ends_fail _) fun _ => (ends_newWires _).bind fun outputs => ?_
  exact .bind (ends_modify fun _ hd => hd.of_blocks rfl) fun _ => ends_pure _

theorem ends_expandBody {block : Block} {count : Nat} {frame : ContextId} {skipped : Nat}
    {nodes : List Node} (hheight : Node.heightAll nodes ≤ height)
    (hbound : Node.heightAll nodes + 1 < bound) :
    Ends height level (expandBody step block count frame skipped nodes) level := by
  induction nodes generalizing skipped with
  | nil => cases skipped <;> exact ends_pure _
  | cons node rest ih =>
    have hlower : Node.heightAll rest ≤ Node.heightAll (node :: rest) := Nat.le_max_right ..
    cases skipped with
    | succ skipped => exact ih (by omega) (by omega)
    | zero =>
      refine (hstep.among hheight hbound).bind fun yield => ?_
      have hrest (skipped : Nat) : Ends height level
          (expandBody step block count frame skipped rest) level := ih (by omega) (by omega)
      refine ends_ite (fun _ => ?_) fun _ => ?_
      · exact (ends_passOutputs _ _ _ _ _).bind fun _ => (hrest _).bind fun _ => ends_pure _
      · exact (ends_pure _).bind fun _ => (hrest _).bind fun _ => ends_pure _

theorem ends_expandAll {values : List WireId} {skipped : Nat} {nodes : List Node}
    (hheight : Node.heightAll nodes ≤ height) (hbound : Node.heightAll nodes + 1 < bound) :
    Ends height level (expandAll step values skipped nodes) level := by
  induction nodes generalizing values skipped with
  | nil => cases skipped <;> exact ends_pure _
  | cons node rest ih =>
    have hlower : Node.heightAll rest ≤ Node.heightAll (node :: rest) := Nat.le_max_right ..
    cases skipped with
    | succ skipped => exact ih (by omega) (by omega)
    | zero =>
      exact (hstep.among hheight hbound).bind fun yield => ih (by omega) (by omega)

variable {limit : UInt64}

theorem ends_invokeBlock (hbody : exceeds limit (level + 1) = false →
      Copes height (level + 1) (height + 1) step) {name : String} {args : List Node}
    (hheight : Node.heightAll args ≤ height) (hbound : Node.heightAll args < bound) :
    Ends height level (invokeBlock limit step pos name args) level := by
  refine ends_get fun d hd => ?_
  cases hcall : d.call? name with
  | none => exact ends_fail _
  | some call =>
    obtain ⟨hholder, hblock⟩ := hd.call hcall
    refine (ends_set hholder).bind fun _ => (ends_valuesEach hstep hheight hbound).bind
      fun arguments => ends_ite (fun _ => ends_fail _) fun _ => ?_
    refine .bind (ends_modifyGet fun _ hd => hd.of_blocks rfl) fun frame =>
      (ends_passInputs _ _ _ _ _).bind fun bindings => ends_get fun around haround => ?_
    refine ends_ite (fun _ => ends_fail _) fun hexceeds => ends_get fun parent _ => ?_
    rw [haround.level, Bool.not_eq_true] at hexceeds
    -- The scope of the block is open from here until the body has been expanded.
    refine .bind (ends_modify fun _ hd => hd.of_blocks rfl) fun _ =>
      .bind (ends_modify fun _ hd => hd.enter rfl) fun _ => ?_
    refine (ends_expandBody (hbody hexceeds) (Nat.le_of_lt hblock)
      (Nat.succ_lt_succ hblock)).bind fun outputs => ?_
    exact .bind (ends_modify fun _ hleft => hleft.leave hd.level_pos) fun _ =>
      .bind (ends_modify fun _ hd => hd.of_blocks rfl) fun _ => ends_pure _

theorem ends_invoke (hbody : exceeds limit (level + 1) = false →
      Copes height (level + 1) (height + 1) step) {name : String} {args : List Node}
    (hheight : Node.heightAll args ≤ height) (hbound : Node.heightAll args < bound) :
    Ends height level (invoke limit step pos name args) level := by
  unfold invoke
  split
  · exact ends_invokeBuiltin hstep hheight hbound
  · exact ends_invokeBlock hstep hbody hheight hbound

/-! ## Nodes -/

/-- A node descends by one, into nodes that are lower or into a further scope. -/
theorem copes_expandNode (hbody : exceeds limit (level + 1) = false →
      Copes height (level + 1) (height + 1) step) :
    Copes height level (bound + 1) (expandNode limit step) := by
  intro node rest hheight hnode hrest
  rw [Node.heightAll] at hheight
  have hsiblings : Node.heightAll rest ≤ height := by omega
  have hlower : ∀ sibling ∈ rest, sibling.height < bound := fun sibling hsibling =>
    Nat.lt_of_succ_lt_succ (hrest sibling hsibling)
  cases node with
  | comment => exact ends_pure _
  | binary pos op lhs rhs =>
    rw [Node.height] at hheight hnode
    have hlhs : Node.heightOption (some lhs) ≤ height ∧ Node.heightOption (some lhs) < bound := by
      rw [Node.heightOption]
      omega
    exact (ends_operand hstep hlhs.1 hlhs.2).bind fun a =>
      (ends_operand hstep (by omega) (by omega)).bind fun b => ends_gateHere _ _
  | negation pos rhs =>
    rw [Node.height] at hheight hnode
    exact (ends_operand hstep (by omega) (by omega)).bind fun a => ends_gateHere _ _
  | group pos members =>
    rw [Node.height] at hheight hnode
    exact (ends_valuesEach hstep (by omega) (by omega)).bind fun values => ends_pure _
  | invocation pos name args =>
    rw [Node.height] at hheight hnode
    exact (ends_invoke hstep hbody (by omega) (by omega)).bind fun values => ends_pure _
  | block pos name params outputs body =>
    rw [Node.height] at hheight hnode
    have hbody : Node.heightAll body < height := by omega
    exact .bind (ends_modify fun _ hd => hd.define hbody) fun _ => ends_pure _
  | returns pos => exact ends_blockReturn hstep hsiblings hlower
  | imports => exact ends_fail _
  | assignment pos names => exact ends_assignment hstep hsiblings hlower
  | identifier pos name => exact (ends_wireOf name).bind fun wire => ends_pure _
  | literal pos value => exact ends_gateHere _ _

end

/-- Below a limit, a bound that has room for the nodes of a scope and for all scopes that
can still be opened is enough. -/
theorem copes_step {limit : UInt64} (hlimit : limit ≠ 0) {bound fuel : Nat}
    (hfuel : (limit.toNat - level) * (height + 2) + bound ≤ fuel) :
    Copes height level bound (Expansion.step limit fuel) := by
  induction fuel generalizing level bound with
  | zero =>
    intro node rest _ hnode
    exact absurd hnode (by omega)
  | succ fuel ih =>
    intro node rest hheight hnode hrest
    obtain ⟨bound, rfl⟩ := Nat.exists_eq_add_one_of_ne_zero (show bound ≠ 0 by omega)
    refine copes_expandNode (ih (by omega)) (fun hexceeds => ih ?_) node rest hheight hnode hrest
    -- A body may be as high as the whole description, but one scope less can be opened in it.
    have hle := le_of_exceeds_eq_false hlimit hexceeds
    have hroom : limit.toNat - level = limit.toNat - (level + 1) + 1 := by omega
    rw [hroom, Nat.succ_mul] at hfuel
    omega

/-! ## Siblings -/

/-- A node takes itself, and no more siblings than there are. -/
theorem taken_expandNode {limit : UInt64} {step : Step} {node : Node} {rest : List Node}
    {d d' : Draft} {yield : Yield} (h : Runs (expandNode limit step node rest) d yield d') :
    1 ≤ yield.taken ∧ yield.taken ≤ rest.length + 1 := by
  obtain ⟨front, back, rfl, htaken, -⟩ := exists_taken h
  rw [List.length_append]
  omega

end Expansion

/-! ## Whole descriptions -/

/-- The finished draft of a description, if its expansion may descend no deeper than a
bound. -/
def Draft.ofForestWithin (limit : UInt64) (bound : Nat) (nodes : List Node) :
    Except Halt (List WireId × Draft) :=
  (Expansion.expandAll (Expansion.step limit bound) [] 0 nodes).run .empty

namespace Netlist

open Expansion

variable {limit limit' : UInt64} {nodes : List Node}

/-- A limit on the open scopes bounds the descent. -/
theorem ofForestWithin_ne_unfinished (hlimit : limit ≠ 0) {bound : Nat}
    (hbound : nestingBound limit nodes ≤ bound) :
    Draft.ofForestWithin limit bound nodes ≠ .error .unfinished := by
  have hpos : 0 < limit.toNat := Nat.pos_of_ne_zero fun hzero => hlimit (UInt64.toNat_inj.1 hzero)
  have hroom : (limit.toNat - 1) * (Node.heightAll nodes + 2) + (Node.heightAll nodes + 2) ≤
      bound := by
    rw [nestingBound, scopeBound, if_neg hlimit] at hbound
    rwa [← Nat.succ_mul, Nat.succ_eq_add_one, Nat.sub_add_cancel hpos]
  have hcopes : Copes (Node.heightAll nodes) 1 (Node.heightAll nodes + 2) (step limit bound) :=
    copes_step hlimit hroom
  exact (ends_expandAll hcopes (Nat.le_refl _) (Nat.lt_succ_self _) .empty
    Draft.confined_empty).1

/-- Under a looser limit and with a greater bound on the descent the expansion gives the same
draft, unless it has been cut off before. -/
theorem ofForestWithin_extends {cut : Halt → Prop} {bound : Nat} (hcut : cut .unfinished)
    (hlimit : Loosens cut limit limit') (hbound : nestingBound limit nodes ≤ bound) :
    (∃ halt, cut halt ∧ Draft.ofForest limit nodes = .error halt) ∨
      Draft.ofForestWithin limit' bound nodes = Draft.ofForest limit nodes :=
  extends_expandAll (extends_step hcut hlimit hbound) [] 0 nodes .empty

/-- A netlist comes about exactly as its draft does. -/
theorem ofForest_eq_map (limit : UInt64) (nodes : List Node) : ofForest limit nodes =
    (Draft.ofForest limit nodes).map fun (outputs, d) =>
      { d.netlist with outputs }.linkContexts := by
  unfold ofForest
  cases Draft.ofForest limit nodes <;> rfl

theorem ofForest_eq_error_iff {halt : Halt} :
    ofForest limit nodes = .error halt ↔ Draft.ofForest limit nodes = .error halt := by
  rw [ofForest_eq_map]
  cases Draft.ofForest limit nodes with
  | error other => simp only [Except.map, Except.error.injEq]
  | ok result => exact ⟨nofun, nofun⟩

/-- With a limit the expansion of every description ends, with a netlist or with a fault.
A bound on the descent that the description and the limit give is never met, so that no
greater one makes a difference.  Every node takes a sibling at least, itself. -/
theorem ofForest_ends (hlimit : limit ≠ 0) (nodes : List Node) :
    ((∃ n, ofForest limit nodes = .ok n) ∨ ∃ fault, ofForest limit nodes = .error (.failed fault)) ∧
      (∀ bound, nestingBound limit nodes ≤ bound →
        Draft.ofForestWithin limit bound nodes = Draft.ofForest limit nodes ∧
          Draft.ofForestWithin limit bound nodes ≠ .error .unfinished) ∧
      ∀ bound node rest d yield d', Runs (step limit bound node rest) d yield d' →
        1 ≤ yield.taken ∧ yield.taken ≤ rest.length + 1 := by
  have hends : Draft.ofForest limit nodes ≠ .error .unfinished :=
    ofForestWithin_ne_unfinished hlimit (Nat.le_refl _)
  refine ⟨?_, fun bound hbound => ⟨?_, ofForestWithin_ne_unfinished hlimit hbound⟩, ?_⟩
  · cases hn : ofForest limit nodes with
    | ok n => exact Or.inl ⟨n, rfl⟩
    | error halt =>
      cases halt with
      | unfinished => exact absurd (ofForest_eq_error_iff.1 hn) hends
      | failed fault => exact Or.inr ⟨fault, rfl⟩
  · have hextends : (∃ halt, halt = .unfinished ∧ Draft.ofForest limit nodes = .error halt) ∨
        Draft.ofForestWithin limit bound nodes = Draft.ofForest limit nodes :=
      ofForestWithin_extends rfl (Or.inl rfl) hbound
    rcases hextends with ⟨halt, rfl, hcut⟩ | hsame
    · exact absurd hcut hends
    · exact hsame
  · intro bound node rest d yield d' h
    cases bound with
    | zero => exact absurd h runs_throw
    | succ bound => exact taken_expandNode h

/-- A block that invokes itself. -/
def looping : List Node :=
  let pos := Position.start
  [.block pos "loop" ["x"] 1 [.returns pos, .invocation pos "loop" [.identifier pos "x"]],
    .invocation pos "loop" [.literal pos true]]

/-- The expansion of a block that invokes itself ends with a fault. -/
theorem ofForest_ends_looping :
    (3 : UInt64) ≠ 0 ∧ (∃ fault, ofForest 3 looping = .error (.failed fault)) ∧
      ∀ bound, 12 ≤ bound → Draft.ofForestWithin 3 bound looping ≠ .error .unfinished := by
  have hlimit : (3 : UInt64) ≠ 0 := by decide
  obtain ⟨hresult, hbounds, -⟩ := ofForest_ends hlimit looping
  refine ⟨hlimit, hresult.resolve_left ?_, fun bound hbound => (hbounds bound hbound).2⟩
  rintro ⟨n, hn⟩
  have hfault : (ofForest 3 looping).toOption.isSome = false := by decide +kernel
  rw [hn] at hfault
  exact absurd hfault nofun

/-! ## Looser limits -/

theorem nestingBound_le_of_looser (hlimit : limit ≠ 0) (hlooser : limit ≤ limit' ∨ limit' = 0) :
    nestingBound limit nodes ≤ nestingBound limit' nodes := by
  have hscopes : scopeBound limit ≤ scopeBound limit' := by
    rw [scopeBound, scopeBound, if_neg hlimit]
    split
    · exact Nat.le_of_lt limit.toNat_lt
    · next hlimit' => exact UInt64.le_iff_toNat_le.1 (hlooser.resolve_right hlimit')
  exact Nat.mul_le_mul_right _ hscopes

theorem exceeds_eq_false_of_looser (hlimit : limit ≠ 0) (hlooser : limit ≤ limit' ∨ limit' = 0)
    {scopes : Nat} (h : exceeds limit scopes = false) : exceeds limit' scopes = false := by
  have hscopes := le_of_exceeds_eq_false hlimit h
  rcases hlooser with hle | rfl
  · have hle' := UInt64.le_iff_toNat_le.1 hle
    rw [exceeds, decide_eq_false (show ¬limit'.toNat < scopes by omega), Bool.and_false]
  · rfl

/-- Under a looser limit the expansion gives the same draft, unless the first limit has
stopped it. -/
theorem ofForestWithin_of_looser (hlimit : limit ≠ 0) (hlooser : limit ≤ limit' ∨ limit' = 0)
    {bound : Nat} (hbound : nestingBound limit nodes ≤ bound) :
    (∃ name pos, Draft.ofForest limit nodes =
        .error (.failed (.depthExceeded name limit.toNat pos))) ∨
      Draft.ofForestWithin limit' bound nodes = Draft.ofForest limit nodes := by
  have hends : Draft.ofForest limit nodes ≠ .error .unfinished :=
    ofForestWithin_ne_unfinished hlimit (Nat.le_refl _)
  have hloosens : Loosens (fun halt => halt = .unfinished ∨
      ∃ name pos, halt = .failed (.depthExceeded name limit.toNat pos)) limit limit' :=
    Or.inr ⟨fun _ => exceeds_eq_false_of_looser hlimit hlooser,
      fun name pos => Or.inr ⟨name, pos, rfl⟩⟩
  rcases ofForestWithin_extends (Or.inl rfl) hloosens hbound with ⟨halt, hhalt, hcut⟩ | hsame
  · rcases hhalt with rfl | ⟨name, pos, rfl⟩
    · exact absurd hcut hends
    · exact Or.inl ⟨name, pos, hcut⟩
  · exact Or.inr hsame

/-- So a netlist stays what it is. -/
theorem ofForest_eq_ok_of_looser (hlimit : limit ≠ 0) (hlooser : limit ≤ limit' ∨ limit' = 0)
    {n : Netlist} (h : ofForest limit nodes = .ok n) : ofForest limit' nodes = .ok n := by
  rcases ofForestWithin_of_looser hlimit hlooser (nestingBound_le_of_looser hlimit hlooser) with
    ⟨name, pos, hcut⟩ | hsame
  · rw [ofForest_eq_error_iff.2 hcut] at h
    cases h
  · rw [ofForest_eq_map] at h ⊢
    exact (congrArg _ hsame).trans h

/-- What a limit on the open scopes does not stop, a looser limit leaves as it is: it gives
the same netlist or the same fault.  The expansion stays within the bound on the descent
that the first limit gives. -/
theorem ofForest_of_looser (hlimit : limit ≠ 0) (hlooser : limit ≤ limit' ∨ limit' = 0)
    (nodes : List Node)
    (hpasses : ∀ name most pos,
      ofForest limit nodes ≠ .error (.failed (.depthExceeded name most pos))) :
    ofForest limit' nodes = ofForest limit nodes ∧ ofForest limit' nodes ≠ .error .unfinished ∧
      ∀ bound, nestingBound limit nodes ≤ bound →
        Draft.ofForestWithin limit' bound nodes = Draft.ofForest limit nodes := by
  have hends : Draft.ofForest limit nodes ≠ .error .unfinished :=
    ofForestWithin_ne_unfinished hlimit (Nat.le_refl _)
  have hwithin : ∀ bound, nestingBound limit nodes ≤ bound →
      Draft.ofForestWithin limit' bound nodes = Draft.ofForest limit nodes := by
    intro bound hbound
    rcases ofForestWithin_of_looser hlimit hlooser hbound with ⟨name, pos, hcut⟩ | hsame
    · exact absurd (ofForest_eq_error_iff.2 hcut) (hpasses name _ pos)
    · exact hsame
  have hdrafts : Draft.ofForest limit' nodes = Draft.ofForest limit nodes :=
    hwithin _ (nestingBound_le_of_looser hlimit hlooser)
  refine ⟨by rw [ofForest_eq_map, hdrafts, ← ofForest_eq_map], fun herror => ?_, hwithin⟩
  exact hends (hdrafts ▸ ofForest_eq_error_iff.1 herror)

/-- A block inside another, each invoked where an argument is expected. -/
def nested : List Node :=
  let pos := Position.start
  let name := Node.identifier pos
  [.block pos "outer" ["x"] 1
      [.block pos "inner" ["y"] 1 [.returns pos, .negation pos (some (name "y"))],
        .returns pos, .invocation pos "inner" [.invocation pos "inner" [name "x"]]],
    .invocation pos "outer" [.invocation pos "outer" [.literal pos true]]]

/-- Three scopes are open at once, so that no limit from three on makes a difference. -/
theorem ofForest_of_looser_nested :
    ∃ n, ofForest 3 nested = .ok n ∧ n.contexts.length = 6 ∧ ofForest 0 nested = .ok n := by
  have hbuilt : (ofForest 3 nested).toOption.map (fun n => n.contexts.length) = some 6 := by
    decide +kernel
  obtain ⟨n, hn, hcontexts⟩ := exists_of_toOption_map hbuilt
  have hpasses : ∀ name most pos,
      ofForest 3 nested ≠ .error (.failed (.depthExceeded name most pos)) := by
    rw [hn]
    exact fun _ _ _ => nofun
  have hlimit : (3 : UInt64) ≠ 0 := by decide
  have hlooser := ofForest_of_looser hlimit (Or.inr rfl : 3 ≤ (0 : UInt64) ∨ _) nested hpasses
  exact ⟨n, hn, hcontexts, hlooser.1.trans hn⟩

end Netlist

end Gatework
