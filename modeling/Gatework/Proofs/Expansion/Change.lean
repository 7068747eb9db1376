import Gatework.Proofs.Expansion.Sound
import Mathlib.Logic.Relation

/-!
# Changes of a draft

All that an expansion does to a draft is a sequence of changes of nine sorts.
What each of them keeps is kept by every expansion.

There are three groups.

* `GateKind.Fits` says which pins a kind of gate has.
* `Draft.Change` lists the changes, each with the conditions under which it
  comes.  `Draft.Reaches` is a sequence of changes, and keeps a draft sound.
* What is left of the changes if only the circuit is looked at
  (`Change.circuit_cases`), and assignments that rebind no name.
-/

namespace Gatework

/-! ## Pins -/

/-- Whether a kind of gate can have a number of inputs and a number of outputs. -/
def GateKind.Fits (label : String) (inputs outputs : Nat) : GateKind → Prop
  | .conj | .disj => inputs = 2 ∧ outputs = 1
  | .negation | .blockInput | .blockOutput => inputs = 1 ∧ outputs = 1
  | .source | .ground => inputs = 0 ∧ outputs = 1
  | .builtin => ∃ builtin : Builtin, label = builtin.name ∧ builtin.minInputs ≤ inputs ∧
      outputs = builtin.outputs

namespace Draft

/-! ## Changes -/

/-- Whether an invocation has been noted under a number. -/
def Knows (frame : ContextId) (d : Draft) : Prop := ∃ known ∈ d.contexts, known.id = frame

/-- A change that an expansion makes, with its conditions.  The blocks that it defines
and expands have a property, and a limit bounds the number of open scopes. -/
inductive Change (q : Node → Bool) (limit : UInt64) : Draft → Draft → Prop
  | place {d : Draft} {kind : GateKind} {label : String} {inputs : List WireId} {count : Nat}
      {context : ContextId} (hinputs : ∀ wire ∈ inputs, wire ∈ d.wires.ids)
      (hfits : kind.Fits label inputs.length count)
      (hcontext : context = d.scope.id ∨ d.Knows context) :
      Change q limit d (d.place kind label inputs count context).2
  | declare {d : Draft} {name : String} (hname : d.lookup? name = none) :
      Change q limit d (d.declare name).2
  | assign {d : Draft} {name : String} {wire : WireId} (hwire : wire ∈ d.wires.ids) :
      Change q limit d (d.assign name wire)
  | define {d : Draft} {block : Block} (hblock : block.All q) :
      Change q limit d (d.define block)
  | call {d : Draft} {name : String} {call : Call Draft} (hcall : d.call? name = some call) :
      Change q limit d call.holder
  | announce {d : Draft} {name : String}
      (hdepth : Expansion.exceeds limit (d.scopes.length + 1) = false) :
      Change q limit d (d.announce name)
  | enter {d : Draft} {frame : ContextId} {bindings : Bindings} {block : Block}
      (hcontext : ⟨frame, block.name, d.scopes.length, d.scope.id, []⟩ ∈ d.contexts)
      (hbound : ∀ binding ∈ bindings, binding.2 ∈ d.wires.ids) :
      Change q limit d (d.enter ⟨frame, bindings, [], some block⟩)
  | leave {d : Draft} : Change q limit d d.leave
  | note {d : Draft} {expanded : Expanded} (hblock : expanded.block.All q)
      (houtputs : ∀ wire ∈ expanded.outputs, wire ∈ d.wires.ids) :
      Change q limit d (d.noteExpanded expanded)

/-- A sequence of changes. -/
def Reaches (q : Node → Bool) (limit : UInt64) : Draft → Draft → Prop :=
  Relation.ReflTransGen (Change q limit)

variable {q : Node → Bool} {limit : UInt64} {d d' d'' : Draft}

theorem Reaches.refl : Reaches q limit d d := Relation.ReflTransGen.refl

theorem Reaches.trans (h : Reaches q limit d d') (h' : Reaches q limit d' d'') :
    Reaches q limit d d'' := Relation.ReflTransGen.trans h h'

theorem Reaches.step (h : Change q limit d d') : Reaches q limit d d' :=
  Relation.ReflTransGen.single h

/-- A draft does not lose wires. -/
theorem Change.mem_ids (h : Change q limit d d') : ∀ id ∈ d.wires.ids, id ∈ d'.wires.ids := by
  cases h with
  | place => exact (mem_ids_place _ _ _ _ _ d).2
  | declare => exact (d.mem_ids_newWire _).2
  | assign =>
    obtain ⟨_, _, _, _, heq⟩ := assign_eq _ _ d
    rw [heq]
    exact fun id hid => hid
  | call hcall =>
    obtain ⟨scope, outer, heq, -⟩ := call?_eq_some hcall
    rw [heq]
    exact fun id hid => hid
  | leave =>
    obtain ⟨_, _, heq⟩ := d.leave_eq
    rw [heq]
    exact fun id hid => hid
  | define | announce | enter | note => exact fun id hid => hid

/-- A change notes an invocation, or it leaves them alone. -/
theorem Change.contexts_cases (h : Change q limit d d') :
    (d'.contexts = d.contexts ∧ d'.lastFrame = d.lastFrame) ∨
      ∃ name, Expansion.exceeds limit (d.scopes.length + 1) = false ∧ d' = d.announce name := by
  cases h with
  | place =>
    obtain ⟨_, _, _, _, heq⟩ := place_eq _ _ _ _ _ d
    rw [heq]
    exact Or.inl ⟨rfl, rfl⟩
  | assign =>
    obtain ⟨_, _, _, _, heq⟩ := assign_eq _ _ d
    rw [heq]
    exact Or.inl ⟨rfl, rfl⟩
  | call hcall =>
    obtain ⟨_, _, heq, -⟩ := call?_eq_some hcall
    rw [heq]
    exact Or.inl ⟨rfl, rfl⟩
  | announce hdepth => exact Or.inr ⟨_, hdepth, rfl⟩
  | leave =>
    obtain ⟨_, _, heq⟩ := d.leave_eq
    rw [heq]
    exact Or.inl ⟨rfl, rfl⟩
  | declare | define | enter | note => exact Or.inl ⟨rfl, rfl⟩

/-- A draft does not forget invocations. -/
theorem Change.mem_contexts (h : Change q limit d d') :
    ∀ context ∈ d.contexts, context ∈ d'.contexts := by
  rcases h.contexts_cases with ⟨hcontexts, -⟩ | ⟨name, -, rfl⟩
  · rw [hcontexts]
    exact fun context hcontext => hcontext
  · exact fun context hcontext => List.mem_cons_of_mem _ hcontext

/-- A change notes a block that has been expanded, or it leaves them alone. -/
theorem Change.expanded_cases (h : Change q limit d d') :
    d'.expanded = d.expanded ∨
      ∃ e : Expanded, e.block.All q ∧ d'.expanded = e :: d.expanded := by
  cases h with
  | place =>
    obtain ⟨_, _, _, _, heq⟩ := place_eq _ _ _ _ _ d
    rw [heq]
    exact Or.inl rfl
  | assign =>
    obtain ⟨_, _, _, _, heq⟩ := assign_eq _ _ d
    rw [heq]
    exact Or.inl rfl
  | call hcall =>
    obtain ⟨_, _, heq, -⟩ := call?_eq_some hcall
    rw [heq]
    exact Or.inl rfl
  | leave =>
    obtain ⟨_, _, heq⟩ := d.leave_eq
    rw [heq]
    exact Or.inl rfl
  | note hblock => exact Or.inr ⟨_, hblock, rfl⟩
  | declare | define | announce | enter => exact Or.inl rfl

theorem Change.sound (h : Change q limit d d') (hd : d.Sound q) : d'.Sound q := by
  cases h with
  | place => exact hd.place _ _ _ _ _
  | declare => exact hd.declare _
  | assign hwire => exact hd.assign _ hwire
  | define hblock => exact hd.define hblock
  | call hcall =>
    obtain ⟨scope, outer, heq, hscopes, -⟩ := call?_eq_some hcall
    rw [heq]
    exact hd.of_uncounted hscopes fun id hid => hid
  | announce => exact hd.of_uncounted rfl fun id hid => hid
  | enter _ hbound => exact hd.enter hbound rfl
  | leave => exact hd.leave
  | note => exact hd.of_uncounted rfl fun id hid => hid

theorem Reaches.mem_ids (h : Reaches q limit d d') : ∀ id ∈ d.wires.ids, id ∈ d'.wires.ids := by
  induction h with
  | refl => exact fun id hid => hid
  | tail _ hchange ih => exact fun id hid => hchange.mem_ids id (ih id hid)

theorem Reaches.knows (h : Reaches q limit d d') {frame : ContextId} (hframe : d.Knows frame) :
    d'.Knows frame := by
  induction h with
  | refl => exact hframe
  | tail _ hchange ih =>
    obtain ⟨known, hknown, hid⟩ := ih
    exact ⟨known, hchange.mem_contexts known hknown, hid⟩

/-- The blocks that have been expanded have the property of those that are defined. -/
theorem Reaches.all_of_mem_expanded (h : Reaches q limit empty d) :
    ∀ e ∈ d.expanded, e.block.All q := by
  induction h with
  | refl => exact List.forall_mem_nil _
  | tail _ hchange ih =>
    rcases hchange.expanded_cases with hsame | ⟨e, hblock, hnoted⟩
    · rwa [hsame]
    · rw [hnoted, List.forall_mem_cons]
      exact ⟨hblock, ih⟩

theorem Reaches.sound (h : Reaches q limit d d') (hd : d.Sound q) : d'.Sound q := by
  induction h with
  | refl => exact hd
  | tail _ hchange ih => exact hchange.sound ih

/-! ## What changes do to the circuit -/

/-- Two drafts that differ in nothing that their circuits show. -/
structure SameCircuit (d d' : Draft) : Prop where
  wires : d'.wires = d.wires
  gates : d'.gates = d.gates
  lastWire : d'.lastWire = d.lastWire
  rebindings : d'.rebindings = d.rebindings

/-- The changes that matter to the circuit are new gates, new names and
assignments. -/
theorem Change.circuit_cases (h : Change q limit d d') :
    (∃ kind label inputs count context, (∀ wire ∈ inputs, wire ∈ d.wires.ids) ∧
        d' = (d.place kind label inputs count context).2) ∨
      (∃ name, d' = (d.declare name).2) ∨
      (∃ name wire, wire ∈ d.wires.ids ∧ d' = d.assign name wire) ∨ SameCircuit d d' := by
  cases h with
  | place hinputs => exact Or.inl ⟨_, _, _, _, _, hinputs, rfl⟩
  | declare => exact Or.inr (Or.inl ⟨_, rfl⟩)
  | assign hwire => exact Or.inr (Or.inr (Or.inl ⟨_, _, hwire, rfl⟩))
  | call hcall =>
    obtain ⟨scope, outer, heq, -⟩ := call?_eq_some hcall
    refine Or.inr (Or.inr (Or.inr ?_))
    rw [heq]
    exact ⟨rfl, rfl, rfl, rfl⟩
  | leave =>
    obtain ⟨scope, outer, heq⟩ := d.leave_eq
    refine Or.inr (Or.inr (Or.inr ?_))
    rw [heq]
    exact ⟨rfl, rfl, rfl, rfl⟩
  | define | announce | enter | note =>
    exact Or.inr (Or.inr (Or.inr ⟨rfl, rfl, rfl, rfl⟩))

/-- An assignment that rebinds no name is a binding, if it does anything. -/
theorem assign_eq_of_rebindings {name : String} {wire : WireId}
    (h : (d.assign name wire).rebindings = []) :
    d.assign name wire = if name = discarded then d else d.bind name wire := by
  unfold assign at h ⊢
  split
  · rfl
  · next hname =>
    rw [if_neg hname] at h
    split
    · rfl
    · next old hold =>
      rw [hold] at h
      dsimp only at h
      split at h <;> exact absurd h nofun

/-- Rebindings are not forgotten. -/
theorem Change.rebindings_eq_nil (h : Change q limit d d') (hnone : d'.rebindings = []) :
    d.rebindings = [] := by
  rcases h.circuit_cases with ⟨_, _, _, _, _, -, rfl⟩ | ⟨_, rfl⟩ | ⟨_, _, -, rfl⟩ | hsame
  · obtain ⟨_, _, _, _, heq⟩ := place_eq _ _ _ _ _ d
    rw [heq] at hnone
    exact hnone
  · exact hnone
  · rw [assign_eq_of_rebindings hnone] at hnone
    split at hnone <;> exact hnone
  · rw [← hsame.rebindings, hnone]

end Draft

end Gatework
