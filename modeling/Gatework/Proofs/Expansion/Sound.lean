import Gatework.Proofs.Expansion.Runs
import Gatework.Proofs.Trees

/-!
# Sound drafts

A draft is sound if its names stand for wires of it, and if its blocks have some
property.  The changes that an expansion makes keep it so.

There are three groups.

* Identifiers of an arena, which connecting a gate leaves alone.
* Names and calls.  A call gives the innermost block of its name, and changes
  nothing but counts (`Draft.call?_eq_some`).
* `Draft.Sound`, with one lemma for each change.
-/

namespace Gatework

/-! ## Identifiers of an arena -/

namespace Arena

theorem ids_insert (wire : Wire) (a : Arena) :
    (a.insert wire).ids = if wire.id ∈ a.ids then a.ids else wire.id :: a.ids := by
  by_cases h : wire.id ∈ a.ids
  · rw [if_pos h, insert, dif_neg (fun hnone => find?_eq_none.1 hnone h), ids_adjust]
  · rw [if_neg h, insert, dif_pos (find?_eq_none.2 h)]
    rfl

/-- What setting the ends of a wire keeps, connecting a gate keeps. -/
theorem connect_eq {α : Type} {view : Arena → α}
    (hstop : ∀ id gate a, view (setStop id gate a) = view a)
    (hstart : ∀ id gate a, view (setStart id gate a) = view a) (gate : Gate) (a : Arena) :
    view (a.connect gate) = view a := by
  have hfold : ∀ (f : Arena → WireId → Arena) (ids : List WireId) (a : Arena),
      (∀ id a, view (f a id) = view a) → view (ids.foldl f a) = view a := by
    intro f ids a hf
    induction ids generalizing a with
    | nil => rfl
    | cons id ids ih => rw [List.foldl_cons, ih, hf]
  rw [connect, hfold _ _ _ fun id a => hstart id gate.id a,
    hfold _ _ _ fun id a => hstop id gate.id a]

@[simp] theorem ids_connect (gate : Gate) (a : Arena) : (a.connect gate).ids = a.ids :=
  connect_eq (fun _ _ _ => ids_adjust ..) (fun _ _ _ => ids_adjust ..) gate a

end Arena

/-! ## Names and calls -/

theorem Bindings.mem_insert {name : String} {wire : WireId} {bindings : Bindings}
    {binding : String × WireId} (h : binding ∈ bindings.insert name wire) :
    binding ∈ bindings ∨ binding = (name, wire) := by
  rw [insert] at h
  split at h
  · obtain ⟨other, hother, heq⟩ := List.mem_map.1 h
    split at heq
    · exact Or.inr heq.symm
    · exact Or.inl (heq ▸ hother)
  · rcases List.mem_cons.1 h with h | h
    · exact Or.inr h
    · exact Or.inl h

theorem Bindings.mem_of_find? {name : String} {wire : WireId} {bindings : Bindings}
    (h : bindings.find? name = some wire) : (name, wire) ∈ bindings := by
  induction bindings with
  | nil => exact absurd h nofun
  | cons binding rest ih =>
    rw [find?] at h
    split at h
    · next hname =>
      cases h
      rw [← hname]
      exact List.mem_cons_self
    · exact List.mem_cons_of_mem _ (ih h)

theorem Definition.call?_eq_some {name : String} {definitions : List Definition}
    {call : Call (List Definition)} (h : call? name definitions = some call) :
    call.holder.map Definition.block = definitions.map Definition.block ∧
      (definitions.map Definition.block).find? (fun block => block.name = name) =
        some call.block := by
  induction definitions generalizing call with
  | nil => exact absurd h nofun
  | cons definition rest ih =>
    rw [call?] at h
    split at h
    · next hname =>
      cases h
      exact ⟨rfl, List.find?_cons_of_pos (by simpa using hname)⟩
    · next hname =>
      obtain ⟨inner, hinner, rfl⟩ := Option.map_eq_some_iff.1 h
      obtain ⟨hholder, hblock⟩ := ih hinner
      refine ⟨by simp [Call.map, hholder], ?_⟩
      rw [List.map_cons, List.find?_cons_of_neg (by simpa using hname), hblock]
      rfl

theorem Definition.call?_eq_none {name : String} {definitions : List Definition}
    (h : call? name definitions = none) :
    (definitions.map Definition.block).find? (fun block => block.name = name) = none := by
  induction definitions with
  | nil => rfl
  | cons definition rest ih =>
    rw [call?] at h
    split at h
    · exact absurd h nofun
    · next hname =>
      rw [List.map_cons, List.find?_cons_of_neg (by simpa using hname)]
      exact ih (Option.map_eq_none_iff.1 h)

namespace Scope

/-- A scope as it is before any of its blocks has been invoked. -/
def uncounted (s : Scope) : Scope :=
  { s with blocks := s.blocks.map fun definition => ⟨definition.block, 0⟩ }

/-- The innermost block of a name. -/
def blockOf? (name : String) (scopes : List Scope) : Option Block :=
  scopes.findSome? fun scope =>
    (scope.blocks.map Definition.block).find? fun block => block.name = name

/-- A call gives the innermost block of its name, and changes counts only. -/
theorem call?_eq_some {name : String} {scopes : List Scope} {call : Call (List Scope)}
    (h : call? name scopes = some call) :
    call.holder.map uncounted = scopes.map uncounted ∧ blockOf? name scopes = some call.block := by
  induction scopes generalizing call with
  | nil => exact absurd h nofun
  | cons scope rest ih =>
    rw [call?] at h
    split at h
    · next inner hinner =>
      cases h
      obtain ⟨hholder, hblock⟩ := Definition.call?_eq_some hinner
      have hcounts : ∀ definitions : List Definition,
          definitions.map (fun definition => (⟨definition.block, 0⟩ : Definition)) =
            (definitions.map Definition.block).map fun block => ⟨block, 0⟩ := by simp
      refine ⟨?_, ?_⟩
      · simp only [Call.map, List.map_cons, uncounted]
        rw [hcounts, hholder, ← hcounts]
      · rw [blockOf?, List.findSome?_cons, hblock]
        rfl
    · next hnone =>
      obtain ⟨inner, hinner, rfl⟩ := Option.map_eq_some_iff.1 h
      obtain ⟨hholder, hblock⟩ := ih hinner
      refine ⟨by simp [Call.map, hholder], ?_⟩
      rw [blockOf?, List.findSome?_cons, Definition.call?_eq_none hnone]
      exact hblock

end Scope

theorem Draft.call?_eq_some {name : String} {d : Draft} {call : Call Draft}
    (h : d.call? name = some call) :
    ∃ scope outer, call.holder = { d with scope, outer } ∧
      (scope :: outer).map Scope.uncounted = d.scopes.map Scope.uncounted ∧
      Scope.blockOf? name d.scopes = some call.block := by
  obtain ⟨inner, hinner, rfl⟩ := Option.map_eq_some_iff.1 h
  obtain ⟨hholder, hblock⟩ := Scope.call?_eq_some hinner
  obtain ⟨block, count, holder⟩ := inner
  cases holder with
  | nil => exact absurd hholder nofun
  | cons scope outer => exact ⟨scope, outer, rfl, hholder, hblock⟩

/-! ## Sound drafts -/

/-- Whether the node of a block and all nodes inside it have a property. -/
def Block.All (q : Node → Bool) (b : Block) : Prop :=
  ∃ pos, (Node.block pos b.name b.params b.outputs b.body).all q = true

theorem Block.All.allIn_body {q : Node → Bool} {b : Block} (h : b.All q) :
    Node.allIn q b.body = true := by
  obtain ⟨pos, hall⟩ := h
  rw [Node.all, Bool.and_eq_true] at hall
  exact hall.2

namespace Draft

/-- A draft whose names stand for wires of it, and whose blocks have a property, as have
all nodes inside them. -/
structure Sound (q : Node → Bool) (d : Draft) : Prop where
  bound : ∀ scope ∈ d.scopes, ∀ binding ∈ scope.bindings, binding.2 ∈ d.wires.ids
  blocks : ∀ scope ∈ d.scopes, ∀ definition ∈ scope.blocks, definition.block.All q

theorem sound_empty (q : Node → Bool) : Sound q empty where
  bound := by simp [empty, scopes, Scope.root]
  blocks := by simp [empty, scopes, Scope.root]

theorem ids_newWire (desc : Option String) (d : Draft) :
    (d.newWire desc).2.wires.ids =
      if (d.newWire desc).1 ∈ d.wires.ids then d.wires.ids
      else (d.newWire desc).1 :: d.wires.ids :=
  Arena.ids_insert _ _

theorem mem_ids_newWire (desc : Option String) (d : Draft) :
    (d.newWire desc).1 ∈ (d.newWire desc).2.wires.ids ∧
      ∀ id ∈ d.wires.ids, id ∈ (d.newWire desc).2.wires.ids := by
  rw [ids_newWire]
  split
  · next h => exact ⟨h, fun id hid => hid⟩
  · exact ⟨List.mem_cons_self, fun id hid => List.mem_cons_of_mem _ hid⟩

theorem mem_ids_newWires (count : Nat) (d : Draft) :
    (∀ id ∈ (d.newWires count).1, id ∈ (d.newWires count).2.wires.ids) ∧
      ∀ id ∈ d.wires.ids, id ∈ (d.newWires count).2.wires.ids := by
  induction count generalizing d with
  | zero => exact ⟨fun id hid => absurd hid List.not_mem_nil, fun id hid => hid⟩
  | succ count ih =>
    obtain ⟨hfirst, hkeep⟩ := d.mem_ids_newWire none
    obtain ⟨hmore, hkeepMore⟩ := ih (d.newWire none).2
    refine ⟨fun id hid => ?_, fun id hid => hkeepMore id (hkeep id hid)⟩
    rcases List.mem_cons.1 hid with rfl | hid
    · exact hkeepMore _ hfirst
    · exact hmore id hid

theorem mem_ids_place (kind : GateKind) (label : String) (inputs : List WireId) (count : Nat)
    (context : ContextId) (d : Draft) :
    (∀ id ∈ (d.place kind label inputs count context).1,
        id ∈ (d.place kind label inputs count context).2.wires.ids) ∧
      ∀ id ∈ d.wires.ids, id ∈ (d.place kind label inputs count context).2.wires.ids := by
  have hids : (d.place kind label inputs count context).2.wires.ids =
      (d.newWires count).2.wires.ids := Arena.ids_connect _ _
  rw [hids]
  exact d.mem_ids_newWires count

/-- New gates change the arena, the gates and their numbers, and nothing else. -/
theorem place_eq (kind : GateKind) (label : String) (inputs : List WireId) (count : Nat)
    (context : ContextId) (d : Draft) :
    ∃ wires gates lastWire lastGate,
      (d.place kind label inputs count context).2 =
        { d with wires, gates, lastWire, lastGate } := by
  obtain ⟨wires, lastWire, heq⟩ := d.newWires_eq count
  have hplace : (d.place kind label inputs count context).2 =
      (d.newWires count).2.newGate kind label inputs (d.newWires count).1 context := rfl
  rw [hplace, heq]
  exact ⟨_, _, _, _, rfl⟩

/-- A new gate gets the next number and comes first. -/
theorem gates_place (kind : GateKind) (label : String) (inputs : List WireId) (count : Nat)
    (context : ContextId) (d : Draft) :
    (d.place kind label inputs count context).2.gates =
        ⟨⟨d.lastGate + 1⟩, kind, label, inputs, (d.place kind label inputs count context).1,
          context, ""⟩ :: d.gates ∧
      (d.place kind label inputs count context).2.lastGate = d.lastGate + 1 := by
  obtain ⟨wires, lastWire, heq⟩ := d.newWires_eq count
  have hgates : (d.newWires count).2.gates = d.gates := (congrArg Draft.gates heq :)
  have hlast : (d.newWires count).2.lastGate = d.lastGate := (congrArg Draft.lastGate heq :)
  rw [← hgates, ← hlast]
  exact ⟨rfl, rfl⟩

/-- An assignment changes the gates, the scopes and what is noted of it. -/
theorem assign_eq (name : String) (wire : WireId) (d : Draft) :
    ∃ gates scope outer rebindings,
      d.assign name wire = { d with gates, scope, outer, rebindings } := by
  unfold assign
  split
  · exact ⟨_, _, _, _, rfl⟩
  · split
    · exact ⟨_, _, _, _, rfl⟩
    · dsimp only
      split <;> exact ⟨_, _, _, _, rfl⟩

/-- What binding a name and rewiring leave alone of a scope, an assignment leaves alone
of all open scopes. -/
theorem map_scopes_assign {α : Type} {view : Scope → α}
    (hbind : ∀ name wire s, view (Scope.bind name wire s) = view s)
    (hrewire : ∀ old new s, view (Scope.rewire old new s) = view s) (name : String)
    (wire : WireId) (d : Draft) : (d.assign name wire).scopes.map view = d.scopes.map view := by
  have hbound : (d.bind name wire).scopes.map view = d.scopes.map view :=
    congrArg (· :: d.outer.map view) (hbind name wire d.scope)
  have hrewired : ∀ (old : WireId) (scopes : List Scope),
      (scopes.map (Scope.rewire old wire)).map view = scopes.map view := by
    intro old scopes
    rw [List.map_map]
    exact List.map_congr_left fun scope _ => hrewire old wire scope
  unfold assign
  split
  · rfl
  · split
    · exact hbound
    · next old hold =>
      dsimp only
      split
      · rfl
      · exact (hrewired old (d.bind name wire).scopes).trans hbound

theorem leave_eq (d : Draft) : ∃ scope outer, d.leave = { d with scope, outer } := by
  unfold leave
  split <;> exact ⟨_, _, rfl⟩

/-- A draft whose scopes differ from those of a sound one in what they count only,
and whose arena has grown, is sound. -/
theorem Sound.of_uncounted {q : Node → Bool} {d d' : Draft} (h : d.Sound q)
    (hscopes : d'.scopes.map Scope.uncounted = d.scopes.map Scope.uncounted)
    (hids : ∀ id ∈ d.wires.ids, id ∈ d'.wires.ids) : d'.Sound q := by
  have hfind : ∀ scope ∈ d'.scopes, ∃ other ∈ d.scopes, other.uncounted = scope.uncounted := by
    intro scope hscope
    have hmem : scope.uncounted ∈ d.scopes.map Scope.uncounted :=
      hscopes ▸ List.mem_map_of_mem hscope
    exact List.mem_map.1 hmem
  constructor
  · intro scope hscope binding hbinding
    obtain ⟨other, hother, heq⟩ := hfind scope hscope
    have hbindings : other.bindings = scope.bindings := (congrArg Scope.bindings heq :)
    exact hids _ (h.bound other hother binding (hbindings ▸ hbinding))
  · intro scope hscope definition hdefinition
    obtain ⟨other, hother, heq⟩ := hfind scope hscope
    have hmem : (⟨definition.block, 0⟩ : Definition) ∈ other.uncounted.blocks :=
      heq ▸ List.mem_map_of_mem hdefinition
    obtain ⟨same, hsame, hblock⟩ := List.mem_map.1 hmem
    have hall := h.blocks other hother same hsame
    rw [Definition.mk.injEq] at hblock
    rwa [hblock.1] at hall

theorem Sound.place {q : Node → Bool} {d : Draft} (h : d.Sound q) (kind : GateKind)
    (label : String) (inputs : List WireId) (count : Nat) (context : ContextId) :
    (d.place kind label inputs count context).2.Sound q := by
  obtain ⟨wires, gates, lastWire, lastGate, heq⟩ := d.place_eq kind label inputs count context
  refine h.of_uncounted ?_ (d.mem_ids_place kind label inputs count context).2
  rw [heq]
  rfl

/-- Binding a name to a wire of the draft keeps it sound. -/
theorem Sound.bind {q : Node → Bool} {d : Draft} (h : d.Sound q) (name : String) {wire : WireId}
    (hwire : wire ∈ d.wires.ids) : (d.bind name wire).Sound q where
  bound := by
    intro scope hscope binding hbinding
    rcases List.mem_cons.1 hscope with rfl | hscope
    · rcases Bindings.mem_insert hbinding with hbinding | rfl
      · exact h.bound d.scope List.mem_cons_self binding hbinding
      · exact hwire
    · exact h.bound scope (List.mem_cons_of_mem _ hscope) binding hbinding
  blocks := by
    intro scope hscope
    rcases List.mem_cons.1 hscope with rfl | hscope
    · exact h.blocks d.scope List.mem_cons_self
    · exact h.blocks scope (List.mem_cons_of_mem _ hscope)

theorem Sound.rewire {q : Node → Bool} {d : Draft} (h : d.Sound q) (old : WireId) {new : WireId}
    (hnew : new ∈ d.wires.ids) : (d.rewire old new).Sound q := by
  have hscopes : (d.rewire old new).scopes = d.scopes.map (Scope.rewire old new) := rfl
  constructor
  · rw [hscopes]
    intro scope hscope binding hbinding
    obtain ⟨other, hother, rfl⟩ := List.mem_map.1 hscope
    obtain ⟨before, hbefore, rfl⟩ := List.mem_map.1 hbinding
    show (if before.2 = old then new else before.2) ∈ d.wires.ids
    split
    · exact hnew
    · exact h.bound other hother before hbefore
  · rw [hscopes]
    intro scope hscope
    obtain ⟨other, hother, rfl⟩ := List.mem_map.1 hscope
    exact h.blocks other hother

theorem Sound.assign {q : Node → Bool} {d : Draft} (h : d.Sound q) (name : String)
    {wire : WireId} (hwire : wire ∈ d.wires.ids) : (d.assign name wire).Sound q := by
  rw [Draft.assign]
  split
  · exact h
  · split
    · exact h.bind name hwire
    · next old hold =>
      have hnoted : (d.noteRebinding name old wire).Sound q := ⟨h.bound, h.blocks⟩
      dsimp only
      split
      · exact hnoted
      · exact (hnoted.bind name hwire).rewire old hwire

theorem Sound.declare {q : Node → Bool} {d : Draft} (h : d.Sound q) (name : String) :
    (d.declare name).2.Sound q := by
  obtain ⟨hwire, hkeep⟩ := d.mem_ids_newWire (some (Wire.implicitDesc name))
  have hgrown : (d.newWire (some (Wire.implicitDesc name))).2.Sound q :=
    h.of_uncounted rfl hkeep
  exact hgrown.bind name hwire

theorem Sound.define {q : Node → Bool} {d : Draft} (h : d.Sound q) {block : Block}
    (hblock : block.All q) : (d.define block).Sound q where
  bound := by
    intro scope hscope
    rcases List.mem_cons.1 hscope with rfl | hscope
    · exact h.bound d.scope List.mem_cons_self
    · exact h.bound scope (List.mem_cons_of_mem _ hscope)
  blocks := by
    intro scope hscope definition hdefinition
    rcases List.mem_cons.1 hscope with rfl | hscope
    · rcases List.mem_append.1 hdefinition with hdefinition | hdefinition
      · exact h.blocks d.scope List.mem_cons_self definition hdefinition
      · rw [List.mem_singleton.1 hdefinition]
        exact hblock
    · exact h.blocks scope (List.mem_cons_of_mem _ hscope) definition hdefinition

theorem Sound.enter {q : Node → Bool} {d : Draft} (h : d.Sound q) {scope : Scope}
    (hbound : ∀ binding ∈ scope.bindings, binding.2 ∈ d.wires.ids) (hblocks : scope.blocks = []) :
    (d.enter scope).Sound q where
  bound := by
    intro other hother
    rcases List.mem_cons.1 hother with rfl | hother
    · exact hbound
    · exact h.bound other hother
  blocks := by
    intro other hother definition hdefinition
    rcases List.mem_cons.1 hother with rfl | hother
    · have hnone : definition ∈ other.blocks := hdefinition
      rw [hblocks] at hnone
      exact absurd hnone List.not_mem_nil
    · exact h.blocks other hother definition hdefinition

theorem Sound.leave {q : Node → Bool} {d : Draft} (h : d.Sound q) : d.leave.Sound q := by
  rw [Draft.leave]
  split
  · exact h
  · next scope outer houter =>
    have hmem : ∀ other ∈ scope :: outer, other ∈ d.scopes := by
      intro other hother
      rw [scopes, houter]
      exact List.mem_cons_of_mem _ hother
    exact ⟨fun other hother => h.bound other (hmem other hother),
      fun other hother => h.blocks other (hmem other hother)⟩

end Draft

end Gatework
