import Gatework.Netlist.Id
import Gatework.Node

/-!
# Scopes

The names that an expansion knows.  Each invocation has a scope of its own, and
names are looked up from the innermost scope outwards.

There are three groups.

* `Bindings` maps names to wires.
* `Scope` holds the variables and block definitions of one invocation.
* Looking names up along the scopes, innermost first: `lookup?` for variables,
  and `call?` for blocks, which counts the call.
-/

namespace Gatework

/-! ## Variables -/

/-- Names with the wires to which they are bound, each name once, latest first. -/
abbrev Bindings := List (String × WireId)

namespace Bindings

/-- The wire of a name. -/
def find? (name : String) : Bindings → Option WireId
  | [] => none
  | (bound, wire) :: rest => if bound = name then some wire else find? name rest

/-- The bindings with a name bound to a wire. -/
def insert (name : String) (wire : WireId) (bindings : Bindings) : Bindings :=
  if (bindings.find? name).isSome then
    bindings.map fun binding => if binding.1 = name then (name, wire) else binding
  else
    (name, wire) :: bindings

theorem find?_insert (name other : String) (wire : WireId) (bindings : Bindings) :
    (bindings.insert name wire).find? other =
      if other = name then some wire else bindings.find? other := by
  have replaced : ∀ bindings : Bindings,
      find? other (bindings.map fun binding =>
          if binding.1 = name then (name, wire) else binding) =
        if other = name then (bindings.find? name).map fun _ => wire
        else bindings.find? other := by
    intro bindings
    induction bindings with
    | nil => simp [find?]
    | cons binding rest ih =>
      obtain ⟨bound, old⟩ := binding
      by_cases h : bound = name
      · subst h
        by_cases ho : other = bound
        · simp [find?, ho]
        · simp [find?, ih, ho, Ne.symm ho]
      · by_cases ho : bound = other
        · subst ho
          simp [find?, h]
        · simp [find?, ih, h, ho]
  rw [insert]
  split
  · next h =>
    rw [replaced]
    obtain ⟨old, hold⟩ := Option.isSome_iff_exists.1 h
    simp [hold]
  · by_cases ho : other = name
    · simp [find?, ho]
    · simp [find?, ho, Ne.symm ho]

/-- The bindings with one wire in the place of another. -/
def rewire (old new : WireId) (bindings : Bindings) : Bindings :=
  bindings.map fun binding => (binding.1, if binding.2 = old then new else binding.2)

end Bindings

/-! ## Scopes -/

/-- A block that a scope defines, with the number of its invocations so far. -/
structure Definition where
  block : Block
  invocations : Nat

/-- The names of one invocation, or of the description itself. -/
structure Scope where
  id : ContextId
  bindings : Bindings
  /-- The blocks in the order of their definitions. -/
  blocks : List Definition
  /-- The block that is expanded in this scope. -/
  enclosing : Option Block

namespace Scope

/-- The scope of the description itself. -/
def root : Scope := ⟨.root, [], [], none⟩

/-- The scope with a name bound to a wire. -/
def bind (name : String) (wire : WireId) (s : Scope) : Scope :=
  { s with bindings := s.bindings.insert name wire }

/-- The scope with one wire in the place of another. -/
def rewire (old new : WireId) (s : Scope) : Scope :=
  { s with bindings := s.bindings.rewire old new }

/-- The scope with a further block. -/
def define (block : Block) (s : Scope) : Scope :=
  { s with blocks := s.blocks ++ [⟨block, 0⟩] }

end Scope

/-! ## Looking up -/

/-- An answer to a call: the block, the number of the call, and what held the
block, in which the call is counted. -/
structure Call (α : Type) where
  block : Block
  count : Nat
  holder : α

/-- The call with its holder changed. -/
def Call.map {α β : Type} (f : α → β) (call : Call α) : Call β :=
  ⟨call.block, call.count, f call.holder⟩

/-- The call of the first definition of a name. -/
def Definition.call? (name : String) : List Definition → Option (Call (List Definition))
  | [] => none
  | definition :: rest =>
    if definition.block.name = name then
      let count := definition.invocations + 1
      some ⟨definition.block, count, { definition with invocations := count } :: rest⟩
    else
      (call? name rest).map (Call.map (definition :: ·))

namespace Scope

/-- The innermost wire of a name. -/
def lookup? (name : String) (scopes : List Scope) : Option WireId :=
  scopes.findSome? fun scope => scope.bindings.find? name

/-- The call of the innermost block of a name. -/
def call? (name : String) : List Scope → Option (Call (List Scope))
  | [] => none
  | scope :: rest =>
    match Definition.call? name scope.blocks with
    | some call => some (call.map fun blocks => { scope with blocks } :: rest)
    | none => (call? name rest).map (Call.map (scope :: ·))

end Scope

end Gatework
