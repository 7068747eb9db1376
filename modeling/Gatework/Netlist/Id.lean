/-!
# Identifiers

Wires, gates and calling contexts are named by numbers of 32 bits, each sort by
numbers of its own.

There are three groups, one for each sort.  `text` is the form in listings, a
sign and the number.  The context zero is the root: the description itself.
-/

namespace Gatework

/-! ## Wires -/

/-- Names a wire. -/
structure WireId where
  number : UInt32
deriving DecidableEq, Hashable

namespace WireId

instance : LT WireId := ⟨fun a b => a.number < b.number⟩

instance (a b : WireId) : Decidable (a < b) := inferInstanceAs (Decidable (a.number < b.number))

/-- The form in listings. -/
def text (id : WireId) : String := s!"%{id.number.toNat}"

end WireId

/-! ## Gates -/

/-- Names a gate. -/
structure GateId where
  number : UInt32
deriving DecidableEq, Hashable

namespace GateId

instance : LT GateId := ⟨fun a b => a.number < b.number⟩

instance (a b : GateId) : Decidable (a < b) := inferInstanceAs (Decidable (a.number < b.number))

/-- The form in listings. -/
def text (id : GateId) : String := s!"#{id.number.toNat}"

end GateId

/-! ## Calling contexts -/

/-- Names a calling context: the description itself, or an invocation of a
block. -/
structure ContextId where
  number : UInt32
deriving DecidableEq

namespace ContextId

instance : LT ContextId := ⟨fun a b => a.number < b.number⟩

instance (a b : ContextId) : Decidable (a < b) :=
  inferInstanceAs (Decidable (a.number < b.number))

/-- The description itself. -/
def root : ContextId := ⟨0⟩

/-- Whether a context is the description itself. -/
def isRoot (id : ContextId) : Bool := id == root

/-- The form in listings. -/
def text (id : ContextId) : String := s!"@{id.number.toNat}"

end ContextId

end Gatework
