import Gatework.Position
import Gatework.Token

/-!
# Faults of an expansion

The reasons why a tree is no circuit, and how an expansion stops.

There are two groups.

* `ExpansionError` is a fault of a tree, with the words for it.
* `Halt` is the reason why an expansion has no result: a fault of the tree, or
  blocks that invoke each other without end.
-/

namespace Gatework

/-! ## Faults -/

/-- A fault of a tree, with the position at which it shows. -/
inductive ExpansionError
  /-- An operand yields no value or several. -/
  | arity (kind : TokenKind) (side : Side) (found : Nat) (pos : Position)
  | missingOperand (kind : TokenKind) (side : Side) (pos : Position)
  | builtinArity (name : String) (expected found : Nat) (pos : Position)
  | unknownBlock (name : String) (pos : Position)
  | tooManyArguments (name : String) (expected found : Nat) (pos : Position)
  | depthExceeded (name : String) (limit : Nat) (pos : Position)
  | noEnclosingBlock (pos : Position)
  | missingReturnValues (name : String) (expected found : Nat) (pos : Position)
  | tooManyReturnValues (name : String) (expected found : Nat) (pos : Position)
  /-- An assignment has more names than values. -/
  | assignmentUnderflow (names values : Nat) (pos : Position)
  | notAnExpression (kind : TokenKind) (name : String) (pos : Position)
  | noValue (pos : Position)
  | unexpectedToken (kind : TokenKind) (pos : Position)
deriving DecidableEq

/-- The words for a fault. -/
def ExpansionError.message : ExpansionError → String
  | .arity kind side found pos =>
    let amount := if found = 0 then "zero" else "multiple"
    s!"{side.text} hand side of {kind.tag} gate at {pos.text} outputs {amount} values in a " ++
      "single value context"
  | .missingOperand kind side pos =>
    s!"{kind.tag} gate at {pos.text} has no {side.text} hand side"
  | .builtinArity name expected found pos =>
    s!"the builtin {name} at {pos.text} wasn't called with enough parameters (expected at " ++
      s!"least {expected}, was called with {found})"
  | .unknownBlock name pos =>
    s!"the invocation at {pos.text} (trying to invoke {name}) doesn't invoke a block that " ++
      "can be found in the current or any parent scope"
  | .tooManyArguments name expected found pos =>
    s!"the invocation at {pos.text} (trying to invoke {name}) is invoking the block with " ++
      s!"too many parameters (expected {expected}, received {found})"
  | .depthExceeded name limit pos =>
    s!"the invocation at {pos.text} (trying to invoke {name}) has surpassed the max call " ++
      s!"depth of {limit}"
  | .noEnclosingBlock pos => s!"return at {pos.text} is not inside a block"
  | .missingReturnValues name expected found pos =>
    s!"block {name} at {pos.text} has too few return values, expected {expected}, got {found}"
  | .tooManyReturnValues name expected found pos =>
    s!"block {name} at {pos.text} has too many return values, expected {expected}, got {found}"
  | .assignmentUnderflow names values pos =>
    s!"assignment at {pos.text} has more variables on the left hand side ({names}) than " ++
      s!"values on the right hand side to assign ({values})"
  | .notAnExpression kind name pos =>
    s!"token at {pos.text} assigned to variable `{name}` is not an expression (is {kind.tag})"
  | .noValue pos => s!"expression at {pos.text} outputs no values"
  | .unexpectedToken kind pos => s!"unexpected {kind.tag} token at {pos.text}"

/-! ## Halts -/

/-- The reason why an expansion has no result. -/
inductive Halt
  /-- The blocks invoke each other more deeply than the bound of the expansion. -/
  | unfinished
  | failed (error : ExpansionError)
deriving DecidableEq

/-- The words for a halt. -/
def Halt.message : Halt → String
  | .unfinished => "the invocations of blocks have no end"
  | .failed error => error.message

end Gatework
