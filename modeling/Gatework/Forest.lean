import Gatework.Collection
import Gatework.Forest.Error
import Gatework.Lexeme
import Gatework.Node

/-!
# Descriptions from their texts

`Forest.ofText` reads the trees of a circuit description.  Tokens are placed one
after the other into the list of nodes that is open, and every token is followed
by a check of that list.

There are five groups.

* The rules that a list of nodes has to keep.
* `Scaffold` is what has been built: the open list, and around it the brackets
  that hold it with the lists in which they stand.
* Placing a token: a node is put at the end, an operator takes the operand
  before it, and brackets open and close lists.
* `Scaffold.add` places a token, checks the open list, splices an import, and
  gives a new operand to the operator that waits for it.
* The reading of whole texts, and of imports.
-/

namespace Gatework

/-! ## Rules of a list -/

/-- The words that no identifier and no assigned name may be. -/
def reservedWords : List String := ["let", "block", "return"]

/-- The rule that a reserved word breaks in a node, if there is one. -/
def Node.reservedUse? : Node → Option Violation
  | .identifier _ name =>
    if reservedWords.contains name then some (.reservedIdentifier name) else none
  | .assignment _ names =>
    (names.find? fun name => reservedWords.contains name).map .reservedAssignment
  | _ => none

/-- The first broken rule of a list.  The flag says whether a return stands
before it. -/
def firstViolation? : Bool → List Node → Option Violation
  | _, [] => none
  | afterReturn, node :: rest =>
    match node.reservedUse? with
    | some violation => some violation
    | none =>
      if afterReturn && !node.isOperand then
        some (.nonOperandAfterReturn node.kind)
      else
        firstViolation? (afterReturn || node.isReturn) rest

/-- The rule that an operand breaks by its absence or its kind. -/
def operandViolation? (kind : TokenKind) (side : Side) : Option Node → Option Violation
  | some operand => if operand.isOperand then none else some (.missingOperand kind side)
  | none => some (.missingOperand kind side)

/-- The rule that the operands of a node break. -/
def Node.operandViolation? : Node → Option Violation
  | .binary _ op lhs rhs =>
    (Gatework.operandViolation? op.kind .left (some lhs)).or
      (Gatework.operandViolation? op.kind .right rhs)
  | .negation _ rhs => Gatework.operandViolation? .negation .right rhs
  | _ => none

/-! ## Scaffolds -/

/-- A bracket that has been opened and not yet closed. -/
inductive Wrapper
  | group (pos : Position)
  | invocation (pos : Position) (name : String)
  | block (pos : Position) (name : String) (params : List String)

namespace Wrapper

/-- The kind of the bracket. -/
def bracket : Wrapper → Bracket
  | group _ | invocation _ _ => .round
  | block _ _ _ => .brace

/-- The node that a bracket makes of the nodes inside it. -/
def close (nodes : List Node) : Wrapper → Node
  | group pos => .group pos nodes
  | invocation pos name => .invocation pos name nodes
  | block pos name params => .block pos name params (Node.valuesAfterReturn nodes) nodes

end Wrapper

/-- A description that is being built.  Lists of nodes are kept latest first. -/
structure Scaffold where
  /-- The open list. -/
  current : List Node
  /-- The open brackets, innermost first, each with the list in which it stands. -/
  outer : List (Wrapper × List Node)

namespace Scaffold

/-- The scaffold before the first token. -/
def empty : Scaffold := ⟨[], []⟩

/-- The scaffold with a node at the end of the open list. -/
def push (node : Node) (s : Scaffold) : Scaffold := { s with current := node :: s.current }

/-! ## Placing a token -/

/-- Puts an operator in the place of its left operand, the last node. -/
def pushConnective (op : Connective) (pos : Position) (s : Scaffold) :
    Except ForestError Scaffold :=
  match s.current with
  | lhs :: rest =>
    if lhs.isOperand then
      .ok { s with current := .binary pos op lhs none :: rest }
    else
      .error (.missingLeftOperand op pos)
  | [] => .error (.missingLeftOperand op pos)

/-- Opens a group, or an invocation if the last node is an identifier. -/
def openGroup (pos : Position) (s : Scaffold) : Scaffold :=
  match s.current with
  | .identifier namePos name :: rest => ⟨[], (.invocation namePos name, rest) :: s.outer⟩
  | nodes => ⟨[], (.group pos, nodes) :: s.outer⟩

/-- Opens a block. -/
def openBlock (pos : Position) (name : String) (params : List String) (s : Scaffold) :
    Scaffold :=
  ⟨[], (.block pos name params, s.current) :: s.outer⟩

/-- Closes the innermost bracket. -/
def closeBracket (bracket : Bracket) (pos : Position) (s : Scaffold) :
    Except ForestError Scaffold :=
  match s.outer with
  | [] => .error (.unopened pos)
  | (wrapper, nodes) :: rest =>
    if wrapper.bracket = bracket then
      .ok ⟨wrapper.close s.current.reverse :: nodes, rest⟩
    else
      .error (.mismatched pos bracket wrapper.bracket)

/-- Places a token. -/
def place (lexeme : Lexeme) (s : Scaffold) : Except ForestError Scaffold :=
  let pos := lexeme.pos
  match lexeme.token with
  | .comment multiline text => .ok (s.push (.comment pos multiline text))
  | .connective op => s.pushConnective op pos
  | .negation => .ok (s.push (.negation pos none))
  | .groupOpen => .ok (s.openGroup pos)
  | .blockOpen name params => .ok (s.openBlock pos name params)
  | .close bracket => s.closeBracket bracket pos
  | .returns => .ok (s.push (.returns pos))
  | .imports path => .ok (s.push (.imports pos path))
  | .assignment names => .ok (s.push (.assignment pos names))
  | .identifier name => .ok (s.push (.identifier pos name))
  | .literal value => .ok (s.push (.literal pos value))

/-! ## Adding a token -/

/-- Refuses an open list that breaks a rule. -/
def check (pos : Position) (s : Scaffold) : Except ForestError Scaffold :=
  match firstViolation? false s.current.reverse with
  | some violation => .error (.invalid pos violation)
  | none => .ok s

/-- Gives the last node to the operator before it, if that waits for an
operand. -/
def bindLast (s : Scaffold) : Scaffold :=
  match s.current with
  | operand :: operator :: rest =>
    if operand.isOperand && operator.awaitsOperand then
      { s with current := operator.bindOperand operand :: rest }
    else
      s
  | _ => s

/-- An answer to an import: the nodes that stand for a path. -/
abbrev Importer := String → Except ImportRefusal (List Node)

/-- Replaces an import, which is the last node, by the nodes that it stands
for. -/
def splice (importer : Importer) (s : Scaffold) : Except ForestError Scaffold :=
  match s.current with
  | .imports pos path :: rest =>
    match importer path with
    | .ok nodes => .ok { s with current := nodes.reverse ++ rest }
    | .error reason => .error (.importRefused pos path reason)
  | _ => .ok s

/-- Adds a token. -/
def add (importer : Importer) (s : Scaffold) (lexeme : Lexeme) : Except ForestError Scaffold := do
  let placed ← s.place lexeme
  let checked ← placed.check lexeme.pos
  let spliced ← checked.splice importer
  return spliced.bindLast

/-- The nodes of a finished description.  Every bracket is closed, and every
operator has its operands. -/
def finish (pos : Position) (s : Scaffold) : Except ForestError (List Node) :=
  if s.outer.isEmpty then
    match s.current.reverse.findSome? Node.operandViolation? with
    | some violation => .error (.invalid pos violation)
    | none => .ok s.current.reverse
  else
    .error (.unclosed s.outer.length)

end Scaffold

/-! ## Whole texts -/

namespace Forest

/-- The trees of a text, with an answer to its imports. -/
def ofTextWith (importer : Scaffold.Importer) (text : String) :
    Except ForestError (List Node) := do
  let reading := Reading.ofText text
  let scaffold ← reading.lexemes.foldlM (Scaffold.add importer) .empty
  match reading.ending with
  | .complete pos => scaffold.finish pos
  | .stuck pos excerpt => .error (.noToken pos excerpt)

/-- Where descriptions come from: a person at the machine, or clients of a
server. -/
inductive Origin
  | person
  | client
deriving DecidableEq

/-- The refusal of a path that is no collection's name. -/
def Origin.pathRefusal : Origin → ImportRefusal
  | .person => .localPath
  | .client => .serverPath

/-- The nodes that a path stands for.  Collections import nothing themselves. -/
def importCollection (origin : Origin) (path : String) : Except ImportRefusal (List Node) :=
  if Collection.isName path then
    match Collection.find? path with
    | some collection =>
      match ofTextWith (fun _ => .error .unknownCollection) collection.text with
      | .ok nodes => .ok nodes
      | .error error => .error (.faultyCollection error)
    | none => .error .unknownCollection
  else
    .error origin.pathRefusal

/-- The trees of a circuit description. -/
def ofText (origin : Origin) (text : String) : Except ForestError (List Node) :=
  ofTextWith (importCollection origin) text

end Forest

end Gatework
