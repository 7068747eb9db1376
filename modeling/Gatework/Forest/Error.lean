import Gatework.Position
import Gatework.Text.Quoted
import Gatework.Token

/-!
# Faults of a description

The reasons why a text is no circuit description.

There are two groups.

* `Violation` is a broken rule about the nodes of a list, `ForestError` is a
  fault of a text, and `ImportRefusal` is the reason why an import is refused.
* The messages that say each of them in words.
-/

namespace Gatework

/-! ## Faults -/

/-- A rule about the nodes of a list that is broken. -/
inductive Violation
  | reservedIdentifier (name : String)
  | reservedAssignment (name : String)
  | nonOperandAfterReturn (kind : TokenKind)
  | missingOperand (kind : TokenKind) (side : Side)
deriving DecidableEq

mutual

/-- A fault of a text. -/
inductive ForestError
  /-- No token begins at a position. -/
  | noToken (pos : Position) (excerpt : String)
  /-- A binary operator follows no operand. -/
  | missingLeftOperand (op : Connective) (pos : Position)
  /-- A closing bracket closes nothing. -/
  | unopened (pos : Position)
  /-- A closing bracket is of another kind than the open one. -/
  | mismatched (pos : Position) (found opened : Bracket)
  /-- Brackets are open at the end. -/
  | unclosed (extra : Nat)
  | invalid (pos : Position) (violation : Violation)
  | importRefused (pos : Position) (path : String) (reason : ImportRefusal)

/-- The reason why an import is refused. -/
inductive ImportRefusal
  /-- The path is no collection's name, and the text comes from a client. -/
  | serverPath
  /-- The path is no collection's name. -/
  | localPath
  /-- No collection has the name. -/
  | unknownCollection
  /-- The collection is no description itself. -/
  | faultyCollection (error : ForestError)

end

/-! ## Messages -/

/-- The words for a broken rule. -/
def Violation.message : Violation → String
  | .reservedIdentifier name => s!"identifier {name} is a reserved word"
  | .reservedAssignment name =>
    s!"identifier {name} is a reserved word, and cannot be assigned to"
  | .nonOperandAfterReturn kind => s!"non-expression token {kind.tag} found after return"
  | .missingOperand kind side =>
    s!"{kind.tag} operator {side.text} hand side is not an expression"

mutual

/-- The words for a fault of a text. -/
def ForestError.message : ForestError → String
  | .noToken pos excerpt => s!"no such token found at {pos.text} - `{excerpt}`"
  | .missingLeftOperand op pos =>
    s!"attempted to parse a binary operator ({op.kind.tag}), but there wasn't a valid " ++
      s!"expression before the operator at {pos.text}"
  | .unopened pos => s!"attempted to close a wrapper that was never opened at {pos.text}"
  | .mismatched pos found opened =>
    s!"attempted to close wrapper at {pos.text} with a {found.closing.tag} token, and not a " ++
      s!"{opened.opening.tag}_END token"
  | .unclosed extra =>
    s!"stack is not empty ({extra} extra) at end of program " ++
      "(are there more opening brackets than closing ones?)"
  | .invalid pos violation => s!"validation failed at {pos.text} - {violation.message}"
  | .importRefused pos path reason =>
    "cannot import " ++ Text.quoted path ++ s!" at {pos.text}: " ++ reason.message

/-- The words for a refused import. -/
def ImportRefusal.message : ImportRefusal → String
  | .serverPath => "server cannot import local paths"
  | .localPath => "import only allows including standard library collections"
  | .unknownCollection => "no such standard library collection"
  | .faultyCollection error =>
    "standard library collection failed to tokenize: " ++ error.message

end

end Gatework
