import Gatework.Proofs.Evaluation
import Gatework.Proofs.Expansion.Straight
import Gatework.Proofs.Simulation.Equations

/-!
# The meaning of a draft

A draft says what an evaluation of the same description knows, when wires are read
as their signals.  The signals are those of any arena that satisfies the equations
of all gates.

There are three groups.

* `Draft.world` reads a draft as what an evaluation knows, and each change of the
  scopes as the corresponding change of a world.
* What a gate of a kind computes, and that a gate whose equation holds shows it.
* `Draft.OnWay` says that a draft lies on the way to a final one, and
  `Draft.Solution` that an arena satisfies the equations of the final gates.  A
  gate on the way shows what its kind computes (`OnWay.place`).
-/

namespace Gatework

/-! ## Drafts as worlds -/

/-- Bindings whose wires are read as their signals, beside some blocks. -/
def Bindings.frame (a : Arena) (blocks : List Block) (bindings : Bindings) : Frame :=
  ⟨fun name => (bindings.find? name).map a.isPowered, blocks⟩

theorem Bindings.frame_insert (a : Arena) (blocks : List Block) (name : String) (wire : WireId)
    (bindings : Bindings) :
    (bindings.insert name wire).frame a blocks =
      (bindings.frame a blocks).bind name (a.isPowered wire) := by
  have hvalues : ∀ other, ((bindings.insert name wire).find? other).map a.isPowered =
      if other = name then some (a.isPowered wire)
      else (bindings.find? other).map a.isPowered := by
    intro other
    rw [find?_insert]
    split <;> rfl
  simp only [frame, Frame.bind, hvalues]

/-- A scope whose wires are read as their signals. -/
def Scope.frame (a : Arena) (s : Scope) : Frame :=
  s.bindings.frame a (s.blocks.map Definition.block)

namespace Draft

variable {a : Arena} {z d d' : Draft}

/-- A draft whose wires are read as their signals.  The names that it has declared
have used up the first inputs. -/
def world (a : Arena) (d z : Draft) : World :=
  ⟨d.scope.frame a, d.outer.map (Scope.frame a),
    (z.wires.declared.drop d.wires.declared.length).map a.isPowered⟩

theorem frames_world : (d.world a z).frames = d.scopes.map (Scope.frame a) := rfl

/-- Drafts with the same scopes, up to counts, and as many declared wires are the
same world. -/
theorem world_eq (hscopes : d'.scopes.map Scope.uncounted = d.scopes.map Scope.uncounted)
    (hdeclared : d'.wires.declared.length = d.wires.declared.length) :
    d'.world a z = d.world a z := by
  have hframe : ∀ scope : Scope, scope.frame a = scope.uncounted.frame a := by
    intro scope
    rw [Scope.frame, Scope.frame, Scope.uncounted, List.map_map]
    rfl
  have hframes : d'.scopes.map (Scope.frame a) = d.scopes.map (Scope.frame a) := by
    have hmap : ∀ scopes : List Scope, scopes.map (Scope.frame a) =
        (scopes.map Scope.uncounted).map (Scope.frame a) := by
      intro scopes
      rw [List.map_map]
      exact List.map_congr_left fun scope _ => hframe scope
    rw [hmap, hscopes, ← hmap]
  obtain ⟨hscope, houter⟩ := List.cons.inj hframes
  rw [world, world, hscope, houter, hdeclared]

theorem value?_world (name : String) :
    (d.world a z).value? name = (d.lookup? name).map a.isPowered := by
  rw [World.value?, frames_world, List.findSome?_map, lookup?, Scope.lookup?, List.map_findSome?]
  rfl

theorem block?_world (name : String) :
    (d.world a z).block? name = Scope.blockOf? name d.scopes := by
  rw [World.block?, frames_world, List.findSome?_map]
  rfl

theorem world_bind (name : String) (wire : WireId) :
    (d.bind name wire).world a z =
      { d.world a z with frame := (d.world a z).frame.bind name (a.isPowered wire) } := by
  have hframe : (d.bind name wire).scope.frame a = _ := Bindings.frame_insert a _ name wire _
  rw [world, hframe]
  rfl

theorem world_define (block : Block) :
    (d.define block).world a z = (d.world a z).define block := by
  simp [world, define, Scope.define, Scope.frame, Bindings.frame, World.define]

theorem world_leave : d.leave.world a z = (d.world a z).leave := by
  cases houter : d.outer with
  | nil => simp [leave, World.leave, world, houter]
  | cons scope outer => simp [leave, World.leave, world, houter]

end Draft

/-! ## On the way to a final draft -/

/-- Whether a node is one of those of which combinational circuits are made.
Imports and invocations of built-in components are not. -/
def Node.isCombinational : Node → Bool
  | imports _ _ => false
  | invocation _ name _ => (Builtin.ofName? name).isNone
  | _ => true

/-- What a gate of a kind puts on its output. -/
def GateKind.signal (signals : List Bool) : GateKind → Bool
  | .conj => signals.all id
  | .disj => signals.any id
  | .negation => !signals.head?.any id
  | .blockInput | .blockOutput => signals.head?.any id
  | .source => true
  | .ground | .builtin => false

/-- A gate whose equation holds shows what its kind computes. -/
theorem Gate.Satisfied.isPowered {a : Arena} {gate : Gate} {wire : WireId}
    (h : gate.Satisfied a) (houtputs : gate.outputs = [wire]) (hwire : wire ∈ a.ids)
    (hfits : gate.kind.Fits gate.label gate.inputs.length 1) (hkind : gate.kind ≠ .builtin) :
    a.isPowered wire = gate.kind.signal (gate.inputs.map a.isPowered) := by
  have hshows : ∀ signal, gate.Shows a 0 signal → a.isPowered wire = signal := by
    intro signal hsignal
    exact hsignal wire (by rw [houtputs]; rfl) hwire
  obtain ⟨id, kind, label, inputs, outputs, context, state⟩ := gate
  unfold Satisfied at h
  cases kind with
  | conj | disj =>
    have hne : inputs ≠ [] := List.ne_nil_of_length_pos (hfits.1 ▸ Nat.zero_lt_two)
    rw [hshows _ (h hne)]
    simp [GateKind.signal]
  | negation | blockInput | blockOutput =>
    have hne : inputs ≠ [] := List.ne_nil_of_length_pos (hfits.1 ▸ Nat.zero_lt_one)
    obtain ⟨input, rfl⟩ := List.length_eq_one_iff.1 hfits.1
    rw [hshows _ (h hne)]
    rfl
  | source | ground => exact hshows _ h
  | builtin => exact absurd rfl hkind

namespace Draft

variable {limit : UInt64} {a : Arena} {z d d' mid : Draft}

/-- A draft that lies on the way to a final one. -/
structure OnWay (limit : UInt64) (d z : Draft) : Prop where
  before : Reaches Node.isCombinational limit empty d
  after : Reaches Node.isCombinational limit d z

/-- An arena that satisfies the equations of all gates of a final draft, in which
no name has been rebound. -/
structure Solution (z : Draft) (a : Arena) : Prop where
  small : z.wires.size < UInt32.size
  rebindings : z.rebindings = []
  ids : a.ids = z.wires.ids
  solved : ∀ gate ∈ z.gates, ∃ state, Gate.Satisfied a { gate with state }

theorem OnWay.between (hd : d.OnWay limit z) (hd' : d'.OnWay limit z)
    (h : Reaches Node.isCombinational limit d mid)
    (h' : Reaches Node.isCombinational limit mid d') : mid.OnWay limit z :=
  ⟨hd.before.trans h, h'.trans hd'.after⟩

theorem OnWay.sound (hd : d.OnWay limit z) : d.Sound Node.isCombinational :=
  hd.before.sound (sound_empty _)

theorem OnWay.size_lt (hd : d.OnWay limit z) (hz : z.Solution a) :
    d.wires.size < UInt32.size := Nat.lt_of_le_of_lt hd.after.size_le hz.small

theorem OnWay.numbered (hd : d.OnWay limit z) (hz : z.Solution a) : d.Numbered :=
  hd.before.numbered (hd.size_lt hz)

theorem OnWay.grows (hd : d.OnWay limit z) (hz : z.Solution a) :
    d.gates <:+ z.gates ∧ d.wires.declared <+: z.wires.declared :=
  hd.after.grows hd.before hz.small hz.rebindings

theorem OnWay.rebindings_eq_nil (hd : d.OnWay limit z) (hz : z.Solution a) :
    d.rebindings = [] := hd.after.rebindings_eq_nil hz.rebindings

/-- A gate has on its output what its kind computes, and changes nothing that an
evaluation knows. -/
theorem OnWay.place {kind : GateKind} {label : String} {inputs : List WireId} {wire : WireId}
    {context : ContextId} (hz : z.Solution a) (hd : d.OnWay limit z) (hd' : d'.OnWay limit z)
    (hplace : d.place kind label inputs 1 context = ([wire], d'))
    (hfits : kind.Fits label inputs.length 1) (hkind : kind ≠ .builtin) :
    a.isPowered wire = kind.signal (inputs.map a.isPowered) ∧ d'.world a z = d.world a z := by
  have hnumbered := hd.numbered hz
  have hsmall : (d.place kind label inputs 1 context).2.wires.size < UInt32.size := by
    rw [hplace]
    exact hd'.size_lt hz
  obtain ⟨-, -, hdeclared⟩ := hnumbered.place hsmall
  have hgates := (gates_place kind label inputs 1 context d).1
  obtain ⟨_, _, _, _, heq⟩ := place_eq kind label inputs 1 context d
  have hmem := (mem_ids_place kind label inputs 1 context d).1
  rw [hplace] at hdeclared hgates heq hmem
  refine ⟨?_, ?_⟩
  · have hgate := (hd'.grows hz).1.subset (hgates ▸ List.mem_cons_self)
    obtain ⟨state, hsatisfied⟩ := hz.solved _ hgate
    have hwire : wire ∈ a.ids := by
      rw [hz.ids]
      exact hd'.after.mem_ids wire (hmem wire List.mem_cons_self)
    exact hsatisfied.isPowered rfl hwire hfits hkind
  · refine world_eq ?_ (congrArg List.length hdeclared)
    have hscopes : d'.scopes = d.scopes := (congrArg Draft.scopes heq :)
    rw [hscopes]

end Draft

end Gatework
