import Gatework.Proofs.Expansion.Runs
import Gatework.Proofs.Trees.Renaming
import Gatework.Token.Scan

/-!
# Names of variables

A description whose variables have other names has the netlist, or the fault, that it had
before.  The names are seen in two places only: the description of the wire of an undeclared
variable, and the fault of an assignment without a value.

There are eight groups.

* What tells the names of variables, from the wires of a netlist to a whole draft, with other
  names put there (`rename`).
* Arenas.
* Scopes.  Different variables have different names, so a variable is found under its other name
  (`Bindings.find?_rename`).
* Drafts.  It does not matter whether a draft is changed before it gets other names or after.
* `Renames` compares what two computations do, also where they halt.
* The pieces of the expansion, for a step that does not read names (`IgnoresNames`).
* Invocations.
* Nodes, the recursion, and whole descriptions (`ofForest_rename`).
-/

namespace Gatework

variable {ρ : Renaming}

/-! ## What names there are -/

namespace Wire

/-- The words in front of the name in the description of an implicit wire. -/
def implicitWords : List Char := "for implicitly declared variable ".toList

/-- A description with the other name of the variable that it tells. -/
def renameDesc (ρ : Renaming) (desc : String) : String :=
  match Token.afterWord implicitWords desc.toList with
  | some name => implicitDesc (ρ.name (String.ofList name))
  | none => desc

theorem renameDesc_implicitDesc (ρ : Renaming) (name : String) :
    renameDesc ρ (implicitDesc name) = implicitDesc (ρ.name name) := by
  have hname : Token.afterWord implicitWords (implicitDesc name).toList = some name.toList :=
    Token.afterWord_eq_some_iff.2 String.toList_append
  rw [renameDesc, hname]
  dsimp only
  rw [String.ofList_toList]

/-- A wire whose description tells another name. -/
def rename (ρ : Renaming) (wire : Wire) : Wire :=
  { wire with desc := wire.desc.map (renameDesc ρ) }

end Wire

/-- An arena whose wires tell other names. -/
def Arena.rename (ρ : Renaming) (a : Arena) : Arena where
  latest := a.latest.map (Wire.rename ρ)
  nodup := by
    rw [List.map_map]
    exact a.nodup

/-- A netlist whose wires tell other names. -/
def Netlist.rename (ρ : Renaming) (n : Netlist) : Netlist :=
  { n with wires := n.wires.rename ρ }

/-- A fault that tells the other name of a variable. -/
def ExpansionError.rename (ρ : Renaming) : ExpansionError → ExpansionError
  | notAnExpression kind name pos => notAnExpression kind (ρ.name name) pos
  | error => error

def Halt.rename (ρ : Renaming) : Halt → Halt
  | unfinished => unfinished
  | failed error => failed (error.rename ρ)

def Bindings.rename (ρ : Renaming) (bindings : Bindings) : Bindings :=
  bindings.map fun binding => (ρ.name binding.1, binding.2)

def Block.rename (ρ : Renaming) (block : Block) : Block :=
  { block with params := block.params.map ρ.name, body := Node.renameAll ρ block.body }

def Definition.rename (ρ : Renaming) (definition : Definition) : Definition :=
  { definition with block := definition.block.rename ρ }

def Scope.rename (ρ : Renaming) (s : Scope) : Scope :=
  { s with
    bindings := s.bindings.rename ρ
    blocks := s.blocks.map (Definition.rename ρ)
    enclosing := s.enclosing.map (Block.rename ρ) }

def Call.rename {α : Type} (ρ : Renaming) (f : α → α) (call : Call α) : Call α :=
  ⟨call.block.rename ρ, call.count, f call.holder⟩

def Rebinding.rename (ρ : Renaming) (rebinding : Rebinding) : Rebinding :=
  { rebinding with name := ρ.name rebinding.name }

def Expanded.rename (ρ : Renaming) (expanded : Expanded) : Expanded :=
  { expanded with block := expanded.block.rename ρ }

def Draft.rename (ρ : Renaming) (d : Draft) : Draft :=
  { d with
    wires := d.wires.rename ρ
    scope := d.scope.rename ρ
    outer := d.outer.map (Scope.rename ρ)
    rebindings := d.rebindings.map (Rebinding.rename ρ)
    expanded := d.expanded.map (Expanded.rename ρ) }

/-! ## Arenas -/

namespace Arena

theorem find?_rename (id : WireId) (a : Arena) :
    (a.rename ρ).find? id = (a.find? id).map (Wire.rename ρ) :=
  List.find?_map

theorem latest_rename (a : Arena) : (a.rename ρ).latest = a.latest.map (Wire.rename ρ) := rfl

theorem adjust_rename {id : WireId} {f g : Wire → Wire} (hf) (hg)
    (h : ∀ wire : Wire, g (wire.rename ρ) = (f wire).rename ρ) (a : Arena) :
    (a.rename ρ).adjust id g hg = (a.adjust id f hf).rename ρ := by
  refine eq_of_latest_eq ?_
  rw [latest_adjust, latest_rename, latest_rename, latest_adjust, List.map_map, List.map_map]
  refine List.map_congr_left fun wire _ => ?_
  rw [Function.comp_apply, Function.comp_apply, apply_ite (Wire.rename ρ), h]
  rfl

theorem insert_rename (wire : Wire) (a : Arena) :
    (a.rename ρ).insert (wire.rename ρ) = (a.insert wire).rename ρ := by
  have hfind : (a.rename ρ).find? (wire.rename ρ).id = none ↔ a.find? wire.id = none := by
    rw [find?_rename, Option.map_eq_none_iff]
    rfl
  by_cases hnew : a.find? wire.id = none
  · rw [insert, dif_pos (hfind.2 hnew), insert, dif_pos hnew]
    rfl
  · rw [insert, dif_neg (mt hfind.1 hnew), insert, dif_neg hnew]
    exact adjust_rename _ _ (by intro _; rfl) a

theorem connect_rename (gate : Gate) (a : Arena) :
    (a.rename ρ).connect gate = (a.connect gate).rename ρ := by
  have hstop (a : Arena) (id : WireId) :
      (a.rename ρ).setStop id gate.id = (a.setStop id gate.id).rename ρ :=
    adjust_rename _ _ (by intro _; rfl) a
  have hstart (a : Arena) (id : WireId) :
      (a.rename ρ).setStart id gate.id = (a.setStart id gate.id).rename ρ :=
    adjust_rename _ _ (by intro _; rfl) a
  rw [connect, connect, List.foldl_hom (Arena.rename ρ) hstop,
    List.foldl_hom (Arena.rename ρ) hstart]

end Arena

/-! ## Scopes -/

namespace Bindings

theorem find?_rename (name : String) (bindings : Bindings) :
    (bindings.rename ρ).find? (ρ.name name) = bindings.find? name := by
  induction bindings with
  | nil => rfl
  | cons binding rest ih =>
    rw [rename, List.map_cons, find?, find?]
    exact ite_congr (propext ρ.injective.eq_iff) (fun _ => rfl) fun _ => ih

theorem insert_rename (name : String) (wire : WireId) (bindings : Bindings) :
    (bindings.rename ρ).insert (ρ.name name) wire = (bindings.insert name wire).rename ρ := by
  rw [insert, insert, find?_rename]
  split
  · rw [rename, rename, List.map_map, List.map_map]
    refine List.map_congr_left fun binding _ => ?_
    simp only [Function.comp_apply, ρ.injective.eq_iff]
    split <;> rfl
  · rfl

theorem rewire_rename (old new : WireId) (bindings : Bindings) :
    (bindings.rename ρ).rewire old new = (bindings.rewire old new).rename ρ := by
  rw [rename, rename, rewire, rewire, List.map_map, List.map_map]
  rfl

end Bindings

theorem Definition.call?_rename (name : String) (definitions : List Definition) :
    call? name (definitions.map (Definition.rename ρ)) =
      (call? name definitions).map (Call.rename ρ (List.map (Definition.rename ρ))) := by
  induction definitions with
  | nil => rfl
  | cons definition rest ih =>
    have hname : (definition.rename ρ).block.name = definition.block.name := rfl
    rw [List.map_cons, call?, call?, hname, ih]
    split
    · rfl
    · rw [Option.map_map, Option.map_map]
      rfl

namespace Scope

theorem lookup?_rename (name : String) (scopes : List Scope) :
    lookup? (ρ.name name) (scopes.map (Scope.rename ρ)) = lookup? name scopes := by
  rw [lookup?, lookup?, List.findSome?_map]
  refine congrArg (List.findSome? · scopes) (funext fun s => ?_)
  exact Bindings.find?_rename name s.bindings

theorem call?_rename (name : String) (scopes : List Scope) :
    call? name (scopes.map (Scope.rename ρ)) =
      (call? name scopes).map (Call.rename ρ (List.map (Scope.rename ρ))) := by
  induction scopes with
  | nil => rfl
  | cons s rest ih =>
    have hblocks : (s.rename ρ).blocks = s.blocks.map (Definition.rename ρ) := rfl
    rw [List.map_cons, call?, call?, hblocks, Definition.call?_rename, ih]
    cases Definition.call? name s.blocks with
    | some call => rfl
    | none =>
      show (Option.map _ _).map _ = (Option.map _ _).map _
      rw [Option.map_map, Option.map_map]
      rfl

theorem bind_rename (name : String) (wire : WireId) (s : Scope) :
    (s.rename ρ).bind (ρ.name name) wire = (s.bind name wire).rename ρ := by
  rw [bind, bind, rename, rename, Bindings.insert_rename]

theorem rewire_rename (old new : WireId) (s : Scope) :
    (s.rename ρ).rewire old new = (s.rewire old new).rename ρ := by
  rw [rewire, rewire, rename, rename, Bindings.rewire_rename]

theorem define_rename (block : Block) (s : Scope) :
    (s.rename ρ).define (block.rename ρ) = (s.define block).rename ρ := by
  rw [define, define, rename, rename, List.map_append]
  rfl

end Scope

/-! ## Drafts -/

namespace Draft

variable (d : Draft)

theorem lookup?_rename (name : String) : (d.rename ρ).lookup? (ρ.name name) = d.lookup? name :=
  Scope.lookup?_rename name d.scopes

theorem newWire_rename (desc : Option String) :
    (d.rename ρ).newWire (desc.map (Wire.renameDesc ρ)) =
      ((d.newWire desc).1, (d.newWire desc).2.rename ρ) := by
  have hinsert := Arena.insert_rename (ρ := ρ) (.fresh ⟨d.lastWire + 1⟩ desc) d.wires
  rw [newWire, newWire, rename, rename]
  dsimp only
  rw [← hinsert]
  rfl

theorem newGate_rename (kind : GateKind) (label : String) (inputs outputs : List WireId)
    (context : ContextId) : (d.rename ρ).newGate kind label inputs outputs context =
      (d.newGate kind label inputs outputs context).rename ρ := by
  rw [newGate, newGate, rename, rename]
  dsimp only
  rw [Arena.connect_rename]

theorem newFrame_rename :
    (d.rename ρ).newFrame = (d.newFrame.1, d.newFrame.2.rename ρ) := rfl

theorem addContext_rename (context : Context) :
    (d.rename ρ).addContext context = (d.addContext context).rename ρ := rfl

theorem enter_rename (scope : Scope) :
    (d.rename ρ).enter (scope.rename ρ) = (d.enter scope).rename ρ := rfl

theorem leave_rename : (d.rename ρ).leave = d.leave.rename ρ := by
  obtain ⟨_, _, _, _, outer, _, _, _, _, _⟩ := d
  cases outer <;> rfl

theorem define_rename (block : Block) :
    (d.rename ρ).define (block.rename ρ) = (d.define block).rename ρ := by
  rw [define, define, rename, rename]
  dsimp only
  rw [Scope.define_rename]

theorem call?_rename (name : String) :
    (d.rename ρ).call? name = (d.call? name).map (Call.rename ρ (Draft.rename ρ)) := by
  have hscopes : (d.rename ρ).scopes = d.scopes.map (Scope.rename ρ) := rfl
  rw [call?, call?, hscopes, Scope.call?_rename, Option.map_map, Option.map_map]
  refine congrArg (Option.map · _) (funext fun call => ?_)
  obtain ⟨block, count, scopes⟩ := call
  cases scopes <;> rfl

theorem noteExpanded_rename (expanded : Expanded) :
    (d.rename ρ).noteExpanded (expanded.rename ρ) = (d.noteExpanded expanded).rename ρ := rfl

theorem bind_rename (name : String) (wire : WireId) :
    (d.rename ρ).bind (ρ.name name) wire = (d.bind name wire).rename ρ := by
  rw [bind, bind, rename, rename]
  dsimp only
  rw [Scope.bind_rename]

theorem rewire_rename (old new : WireId) :
    (d.rename ρ).rewire old new = (d.rewire old new).rename ρ := by
  have houter : (d.outer.map (Scope.rename ρ)).map (Scope.rewire old new) =
      (d.outer.map (Scope.rewire old new)).map (Scope.rename ρ) := by
    rw [List.map_map, List.map_map]
    exact List.map_congr_left fun s _ => s.rewire_rename old new
  rw [rewire, rewire, rename, rename]
  dsimp only
  rw [Scope.rewire_rename, houter]

theorem assign_rename (name : String) (wire : WireId) :
    (d.rename ρ).assign (ρ.name name) wire = (d.assign name wire).rename ρ := by
  have hdiscarded : ρ.name name = discarded ↔ name = discarded := by
    have hiff := ρ.injective.eq_iff (a := name) (b := discarded)
    rwa [ρ.name_discarded] at hiff
  have hfind : (d.rename ρ).scope.bindings.find? (ρ.name name) = d.scope.bindings.find? name :=
    Bindings.find?_rename name d.scope.bindings
  rw [assign, assign, hfind]
  -- No other variable gets the name that binds nothing.
  by_cases hname : name = discarded
  · rw [if_pos hname, if_pos (hdiscarded.2 hname)]
  · rw [if_neg hname, if_neg (mt hdiscarded.1 hname)]
    cases d.scope.bindings.find? name with
    | none => exact d.bind_rename name wire
    | some old =>
      have hnoted : (d.rename ρ).noteRebinding (ρ.name name) old wire =
        (d.noteRebinding name old wire).rename ρ := rfl
      dsimp only
      rw [hnoted, bind_rename, rewire_rename]
      split <;> rfl

theorem assignAll_rename (pairs : List (String × WireId)) :
    (d.rename ρ).assignAll (pairs.map fun pair => (ρ.name pair.1, pair.2)) =
      (d.assignAll pairs).rename ρ := by
  rw [assignAll, assignAll, List.foldl_map]
  exact List.foldl_hom (Draft.rename ρ) fun d pair => d.assign_rename pair.1 pair.2

end Draft

/-! ## Computations -/

namespace Expansion

variable {α β : Type}

/-- What a computation does on a draft, another one does on the draft with other names.  Its
value is `f` of the first one's. -/
def Renames (ρ : Renaming) (f : α → β) (x : Expansion α) (x' : Expansion β) : Prop :=
  ∀ d : Draft, x'.run (d.rename ρ) =
    ((x.run d).map fun result => (f result.1, result.2.rename ρ)).mapError (Halt.rename ρ)

variable {f : α → β}

theorem renames_pure (a : α) : Renames ρ f (pure a) (pure (f a)) := fun _ => rfl

theorem renames_fail (error : ExpansionError) :
    Renames ρ f (fail error) (fail (error.rename ρ)) := fun _ => rfl

theorem Renames.bind {α' β' : Type} {g : α' → β'} {x : Expansion α} {x' : Expansion β}
    {next : α → Expansion α'} {next' : β → Expansion β'} (h : Renames ρ f x x')
    (hnext : ∀ a, Renames ρ g (next a) (next' (f a))) :
    Renames ρ g (x >>= next) (x' >>= next') := by
  intro d
  rw [StateT.run_bind, StateT.run_bind, h d]
  cases x.run d with
  | error halt => rfl
  | ok result => exact hnext result.1 result.2

theorem renames_get {next : Draft → Expansion α} {next' : Draft → Expansion β}
    (h : ∀ d : Draft, Renames ρ f (next d) (next' (d.rename ρ))) :
    Renames ρ f (get >>= next) (get >>= next') := fun d => h d d

theorem renames_set (d : Draft) : Renames ρ id (set d : Expansion PUnit) (set (d.rename ρ)) :=
  fun _ => rfl

theorem renames_modify {change change' : Draft → Draft}
    (h : ∀ d : Draft, change' (d.rename ρ) = (change d).rename ρ) :
    Renames ρ id (modify change : Expansion PUnit) (modify change') := by
  intro d
  show Except.ok ((), change' (d.rename ρ)) = Except.ok ((), (change d).rename ρ)
  rw [h]

theorem renames_modifyGet {change change' : Draft → α × Draft}
    (h : ∀ d : Draft, change' (d.rename ρ) = ((change d).1, (change d).2.rename ρ)) :
    Renames ρ id (modifyGet change : Expansion α) (modifyGet change') := by
  intro d
  show Except.ok (change' (d.rename ρ)) = Except.ok ((change d).1, (change d).2.rename ρ)
  rw [h]

theorem renames_ite {p : Prop} [Decidable p] {x y : Expansion α} {x' y' : Expansion β}
    (h : p → Renames ρ f x x') (h' : ¬p → Renames ρ f y y') :
    Renames ρ f (if p then x else y) (if p then x' else y') := by
  split
  · next hp => exact h hp
  · next hp => exact h' hp

theorem renames_newWire (desc : Option String) :
    Renames ρ id (newWire desc) (newWire (desc.map (Wire.renameDesc ρ))) :=
  renames_modifyGet fun d => d.newWire_rename desc

theorem renames_newWires (count : Nat) : Renames ρ id (newWires count) (newWires count) := by
  induction count with
  | zero => exact renames_pure []
  | succ count ih =>
    exact (renames_newWire none).bind fun wire => ih.bind fun more => renames_pure (wire :: more)

theorem renames_newGate (kind : GateKind) (label : String) (inputs : List WireId)
    (context : ContextId) :
    Renames ρ id (newGate kind label inputs context) (newGate kind label inputs context) :=
  (renames_newWire none).bind fun output =>
    (renames_modify fun d => d.newGate_rename kind label inputs [output] context).bind
      fun _ => renames_pure output

theorem renames_wireOf (name : String) : Renames ρ id (wireOf name) (wireOf (ρ.name name)) := by
  refine renames_get fun d => ?_
  rw [d.lookup?_rename]
  cases d.lookup? name with
  | some wire => exact renames_pure wire
  | none =>
    have hwire := renames_newWire (ρ := ρ) (some (Wire.implicitDesc name))
    rw [Option.map_some, Wire.renameDesc_implicitDesc] at hwire
    exact hwire.bind fun wire =>
      (renames_modify fun d => d.bind_rename name wire).bind fun _ => renames_pure wire

/-! ## Pieces of the expansion -/

/-- A step that does on a node with other names what it does on the node. -/
def IgnoresNames (ρ : Renaming) (step : Step) : Prop :=
  ∀ node rest, Renames ρ id (step node rest) (step (node.rename ρ) (Node.renameAll ρ rest))

variable {step : Step} {pos : Position}

theorem renames_gateHere (kind : GateKind) (inputs : List WireId) :
    Renames ρ id (gateHere kind inputs) (gateHere kind inputs) :=
  renames_get fun d => (renames_newGate kind "" inputs d.scope.id).bind
    fun output => renames_pure (Yield.single [output])

theorem renames_operand (h : IgnoresNames ρ step) (kind : TokenKind) (side : Side)
    (rhs : Option Node) : Renames ρ id (operand step kind side pos rhs)
      (operand step kind side pos (Node.renameOption ρ rhs)) := by
  cases rhs with
  | none => exact renames_fail _
  | some node =>
    refine (h node []).bind fun yield => ?_
    rw [id]
    split
    · exact renames_pure _
    · exact renames_fail _

theorem renames_valuesEach (h : IgnoresNames ρ step) (nodes : List Node) :
    Renames ρ id (valuesEach step nodes) (valuesEach step (Node.renameAll ρ nodes)) := by
  induction nodes with
  | nil => exact renames_pure []
  | cons node rest ih =>
    exact (h node []).bind fun yield => ih.bind fun more => renames_pure (yield.values :: more)

theorem renames_assignedValues (h : IgnoresNames ρ step) (names : List String)
    (values : List WireId) (taken : Nat) (nodes : List Node) :
    Renames ρ id (assignedValues step pos names values taken nodes)
      (assignedValues step pos (names.map ρ.name) values taken (Node.renameAll ρ nodes)) := by
  have hlength : (names.map ρ.name).length = names.length := List.length_map _
  induction nodes generalizing values taken with
  | nil =>
    rw [Node.renameAll, assignedValues, assignedValues, hlength]
    exact renames_ite (fun _ => renames_fail _) fun _ => renames_pure _
  | cons node rest ih =>
    rw [Node.renameAll, assignedValues, assignedValues]
    by_cases hlen : values.length < names.length
    · rw [dif_pos hlen, dif_pos (hlength.symm ▸ hlen), Node.isValue_rename, Node.kind_rename,
        Node.pos_rename, List.getElem_map]
      refine renames_ite (fun _ => ?_) fun _ => renames_fail _
      refine (h node []).bind fun yield => ?_
      exact renames_ite (fun _ => renames_fail _) fun _ => ih _ _
    · rw [dif_neg hlen, dif_neg (hlength.symm ▸ hlen)]
      exact renames_pure _

theorem renames_assignment (h : IgnoresNames ρ step) (names : List String) (rest : List Node) :
    Renames ρ id (assignment step pos names rest)
      (assignment step pos (names.map ρ.name) (Node.renameAll ρ rest)) := by
  refine (renames_assignedValues h names [] 1 rest).bind fun yield => ?_
  rw [id, List.zip_map_left]
  exact (renames_modify fun d => d.assignAll_rename _).bind fun _ => renames_pure _

theorem renames_returnedValues (h : IgnoresNames ρ step) (block : Block) (values : List WireId)
    (taken : Nat) (nodes : List Node) :
    Renames ρ id (returnedValues step pos block values taken nodes)
      (returnedValues step pos (block.rename ρ) values taken (Node.renameAll ρ nodes)) := by
  induction nodes generalizing values taken with
  | nil => exact renames_ite (fun _ => renames_fail _) fun _ => renames_pure _
  | cons node rest ih =>
    rw [Node.renameAll, returnedValues, returnedValues, Node.pos_rename, Node.length_renameAll]
    refine renames_ite (fun _ => (h node []).bind fun yield => ?_) fun _ => renames_fail _
    exact renames_ite (fun _ => renames_fail _) fun _ => ih _ _

theorem renames_blockReturn (h : IgnoresNames ρ step) (rest : List Node) :
    Renames ρ id (blockReturn step pos rest) (blockReturn step pos (Node.renameAll ρ rest)) := by
  refine renames_get fun d => ?_
  have henclosing : (d.rename ρ).scope.enclosing = d.scope.enclosing.map (Block.rename ρ) := rfl
  rw [henclosing]
  cases d.scope.enclosing with
  | none => exact renames_fail _
  | some block => exact renames_returnedValues h block [] 1 rest

/-! ## Invocations -/

theorem renames_invokeBuiltin (h : IgnoresNames ρ step) (builtin : Builtin) (args : List Node) :
    Renames ρ id (invokeBuiltin step pos builtin args)
      (invokeBuiltin step pos builtin (Node.renameAll ρ args)) := by
  refine (renames_valuesEach h args).bind fun values => ?_
  refine renames_ite (fun _ => renames_fail _) fun _ => ?_
  refine (renames_newWires builtin.outputs).bind fun outputs => ?_
  exact (renames_modify fun d => d.newGate_rename _ _ _ _ d.scope.id).bind
    fun _ => renames_pure outputs

/-- The parameters get the values that they had, under other names. -/
theorem renames_passInputs (block : Block) (count : Nat) (frame : ContextId) (bindings : Bindings)
    (passed : List ((Nat × WireId) × String)) :
    Renames ρ (Bindings.rename ρ) (passInputs block count frame bindings passed)
      (passInputs (block.rename ρ) count frame (bindings.rename ρ)
        (passed.map fun pair => (pair.1, ρ.name pair.2))) := by
  induction passed generalizing bindings with
  | nil => exact renames_pure bindings
  | cons pair rest ih =>
    refine (renames_newGate _ _ _ _).bind fun bound => ?_
    rw [id, Bindings.insert_rename]
    exact ih _

theorem renames_passOutputs (block : Block) (count : Nat) (frame : ContextId) (place : Nat)
    (wires : List WireId) : Renames ρ id (passOutputs block count frame place wires)
      (passOutputs (block.rename ρ) count frame place wires) := by
  induction wires generalizing place with
  | nil => exact renames_pure []
  | cons wire rest ih =>
    exact (renames_newGate _ _ _ _).bind fun output => (ih _).bind
      fun more => renames_pure (output :: more)

theorem renames_expandBody (h : IgnoresNames ρ step) (block : Block) (count : Nat)
    (frame : ContextId) (skipped : Nat) (nodes : List Node) :
    Renames ρ id (expandBody step block count frame skipped nodes)
      (expandBody step (block.rename ρ) count frame skipped (Node.renameAll ρ nodes)) := by
  induction nodes generalizing skipped with
  | nil => cases skipped <;> exact renames_pure []
  | cons node rest ih =>
    cases skipped with
    | succ skipped => exact ih skipped
    | zero =>
      rw [Node.renameAll, expandBody, expandBody, Node.isReturn_rename]
      refine (h node rest).bind fun yield => ?_
      have hmore (outputs : List WireId) : Renames ρ id
          (do let more ← expandBody step block count frame (yield.taken - 1) rest
              return outputs ++ more)
          (do let more ← expandBody step (block.rename ρ) count frame (yield.taken - 1)
                (Node.renameAll ρ rest)
              return outputs ++ more) := (ih _).bind fun more => renames_pure (outputs ++ more)
      refine renames_ite (fun _ => ?_) fun _ => ?_
      · exact (renames_passOutputs block count frame 0 yield.values).bind hmore
      · exact (renames_pure []).bind hmore

theorem renames_invokeBlock (h : IgnoresNames ρ step) (limit : UInt64) (name : String)
    (args : List Node) : Renames ρ id (invokeBlock limit step pos name args)
      (invokeBlock limit step pos name (Node.renameAll ρ args)) := by
  refine renames_get fun d => ?_
  rw [d.call?_rename]
  cases d.call? name with
  | none => exact renames_fail _
  | some call =>
    have hlength : (call.rename ρ (Draft.rename ρ)).block.params.length =
        call.block.params.length := List.length_map _
    refine (renames_set call.holder).bind fun _ => (renames_valuesEach h args).bind fun values => ?_
    have hpassed : (placed values).zip (call.rename ρ (Draft.rename ρ)).block.params =
        ((placed values).zip call.block.params).map fun pair => (pair.1, ρ.name pair.2) :=
      List.zip_map_right ..
    rw [id, hlength]
    dsimp only
    rw [hpassed]
    refine renames_ite (fun _ => renames_fail _) fun _ => ?_
    refine (renames_modifyGet Draft.newFrame_rename).bind fun frame => ?_
    refine (renames_passInputs call.block call.count frame [] _).bind fun bindings => ?_
    refine renames_get fun around => ?_
    have hscopes : (around.rename ρ).scopes.length = around.scopes.length := by
      rw [Draft.scopes, Draft.scopes]
      exact congrArg Nat.succ (List.length_map _)
    rw [hscopes]
    refine renames_ite (fun _ => renames_fail _) fun _ => renames_get fun parent => ?_
    refine (renames_modify fun d => d.addContext_rename _).bind fun _ => ?_
    refine (renames_modify fun d => d.enter_rename ⟨frame, bindings, [], some call.block⟩).bind
      fun _ => ?_
    refine (renames_expandBody h call.block call.count frame 0 call.block.body).bind
      fun outputs => ?_
    refine (renames_modify fun d => d.leave_rename).bind fun _ => ?_
    exact (renames_modify fun d => d.noteExpanded_rename ⟨frame, call.block, outputs⟩).bind
      fun _ => renames_pure outputs

theorem renames_invoke (h : IgnoresNames ρ step) (limit : UInt64) (name : String)
    (args : List Node) : Renames ρ id (invoke limit step pos name args)
      (invoke limit step pos name (Node.renameAll ρ args)) := by
  unfold invoke
  split
  · exact renames_invokeBuiltin h _ args
  · exact renames_invokeBlock h limit name args

/-! ## Nodes and descriptions -/

theorem ignoresNames_expandNode (limit : UInt64) (h : IgnoresNames ρ step) :
    IgnoresNames ρ (expandNode limit step) := by
  intro node rest
  cases node with
  | comment => exact renames_pure _
  | binary pos op lhs rhs =>
    exact (renames_operand h _ _ (some lhs)).bind fun a =>
      (renames_operand h _ _ rhs).bind fun b => renames_gateHere _ _
  | negation pos rhs => exact (renames_operand h _ _ rhs).bind fun a => renames_gateHere _ _
  | group pos members =>
    exact (renames_valuesEach h members).bind
      fun values => renames_pure (Yield.single values.flatten)
  | invocation pos name args =>
    exact (renames_invoke h limit name args).bind fun values => renames_pure (Yield.single values)
  | block pos name params outputs body =>
    exact (renames_modify fun d => d.define_rename ⟨name, params, outputs, body⟩).bind
      fun _ => renames_pure (Yield.single [])
  | returns pos => exact renames_blockReturn h rest
  | imports pos path => exact renames_fail _
  | assignment pos names => exact renames_assignment h names rest
  | identifier pos name =>
    exact (renames_wireOf name).bind fun wire => renames_pure (Yield.single [wire])
  | literal pos value => exact renames_gateHere _ _

theorem ignoresNames_step (limit : UInt64) (fuel : Nat) :
    IgnoresNames ρ (Expansion.step limit fuel) := by
  induction fuel with
  | zero => exact fun _ _ _ => rfl
  | succ fuel ih => exact ignoresNames_expandNode limit ih

theorem renames_expandAll (h : IgnoresNames ρ step) (values : List WireId) (skipped : Nat)
    (nodes : List Node) : Renames ρ id (expandAll step values skipped nodes)
      (expandAll step values skipped (Node.renameAll ρ nodes)) := by
  induction nodes generalizing values skipped with
  | nil => cases skipped <;> exact renames_pure values
  | cons node rest ih =>
    cases skipped with
    | succ skipped => exact ih values skipped
    | zero =>
      rw [Node.renameAll, expandAll, expandAll, Node.isComment_rename]
      exact (h node rest).bind fun yield => ih _ _

end Expansion

/-- The draft of a description with other names. -/
theorem Draft.ofForest_renameAll (ρ : Renaming) (limit : UInt64) (nodes : List Node) :
    ofForest limit (Node.renameAll ρ nodes) =
      ((ofForest limit nodes).map fun result => (result.1, result.2.rename ρ)).mapError
        (Halt.rename ρ) := by
  rw [ofForest, ofForest, Expansion.nestingBound, Expansion.nestingBound, Node.heightAll_renameAll]
  exact Expansion.renames_expandAll (Expansion.ignoresNames_step limit _) [] 0 nodes .empty

namespace Netlist

/-- The names of variables carry no meaning.  A description with other names has the netlist that
it had before, in which the wires of undeclared variables tell the other names, or the fault that
it had before, which tells them too. -/
theorem ofForest_rename (ρ : Renaming) (limit : UInt64) (nodes : List Node) :
    ofForest limit (Node.renameAll ρ nodes) =
      ((ofForest limit nodes).map (Netlist.rename ρ)).mapError (Halt.rename ρ) := by
  rw [ofForest, ofForest, Draft.ofForest_renameAll]
  cases Draft.ofForest limit nodes <;> rfl

/-- An undeclared variable that is inverted and assigned to another variable, whose name is that
of a block too. -/
def mirrored (one other : String) : List Node :=
  let pos := Position.start
  [.block pos "one" [one] 1 [.returns pos, .negation pos (some (.identifier pos one))],
    .assignment pos [one, "_"], .invocation pos "one" [.identifier pos other],
    .identifier pos other, .identifier pos one]

/-- The two variables of a description in the place of each other. -/
def mirror : Renaming := .swap "one" "two" (by decide) (by decide)

theorem ofForest_rename_mirrored :
    ofForest 2 (mirrored "two" "one") =
        ((ofForest 2 (mirrored "one" "two")).map (rename mirror)).mapError (Halt.rename mirror) ∧
      (ofForest 2 (mirrored "one" "two")).toOption.map
          (fun n => n.wires.wires.filterMap Wire.desc) = some [Wire.implicitDesc "two"] ∧
      (ofForest 2 (mirrored "two" "one")).toOption.map
          (fun n => n.wires.wires.filterMap Wire.desc) = some [Wire.implicitDesc "one"] := by
  refine ⟨?_, by decide +kernel, by decide +kernel⟩
  rw [← ofForest_rename]
  rfl

end Netlist

end Gatework
