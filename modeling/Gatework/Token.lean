/-!
# Tokens

The words of a circuit description.

There are three groups.

* `Connective`, `Side` and `Bracket` name the two binary operators, the two
  sides of an operator, and the two kinds of bracket.
* `TokenKind` names the kinds of token and of tree node, with the tag that
  listings and diagnostics show; `Role` says how a kind takes part in the tree.
* `Token` is one word with what it carries.
-/

namespace Gatework

/-! ## Operators and brackets -/

/-- The two binary operators. -/
inductive Connective
  | conj
  | disj
deriving DecidableEq

/-- A side of an operator. -/
inductive Side
  | left
  | right
deriving DecidableEq

/-- The word for a side. -/
def Side.text : Side → String
  | .left => "left"
  | .right => "right"

/-- The two kinds of bracket: round ones make groups, and braces make blocks. -/
inductive Bracket
  | round
  | brace
deriving DecidableEq

/-! ## Kinds -/

/-- The kinds of token and of tree node.  No token is an invocation: a group
that follows an identifier becomes one. -/
inductive TokenKind
  | multilineComment
  | lineComment
  | conj
  | disj
  | negation
  | group
  | groupEnd
  | block
  | blockEnd
  | returns
  | imports
  | assignment
  | identifier
  | literal
  | invocation
deriving DecidableEq

/-- How a kind of token takes part in the tree. -/
inductive Role
  | single
  | unaryOperator
  | binaryOperator
  | wrapperStart
  | wrapperEnd
deriving DecidableEq

namespace TokenKind

/-- All kinds. -/
def all : List TokenKind :=
  [.multilineComment, .lineComment, .conj, .disj, .negation, .group, .groupEnd, .block,
    .blockEnd, .returns, .imports, .assignment, .identifier, .literal, .invocation]

/-- The tag that names a kind in listings and diagnostics. -/
def tag : TokenKind → String
  | .multilineComment => "MULTI_COMMENT"
  | .lineComment => "SINGLE_COMMENT"
  | .conj => "OP_AND"
  | .disj => "OP_OR"
  | .negation => "OP_NOT"
  | .group => "GROUP"
  | .groupEnd => "GROUP_END"
  | .block => "BLOCK"
  | .blockEnd => "BLOCK_END"
  | .returns => "BLOCK_RETURN"
  | .imports => "IMPORT"
  | .assignment => "ASSIGNMENT"
  | .identifier => "IDENTIFIER"
  | .literal => "BOOL"
  | .invocation => "INVOCATION"

/-- The part that a kind plays in the tree. -/
def role : TokenKind → Role
  | .conj | .disj => .binaryOperator
  | .negation => .unaryOperator
  | .group | .block | .invocation => .wrapperStart
  | .groupEnd | .blockEnd => .wrapperEnd
  | _ => .single

end TokenKind

/-- The kind of a binary operator. -/
def Connective.kind : Connective → TokenKind
  | .conj => .conj
  | .disj => .disj

/-- The kind of the token that opens a bracket. -/
def Bracket.opening : Bracket → TokenKind
  | .round => .group
  | .brace => .block

/-- The kind of the token that closes a bracket. -/
def Bracket.closing : Bracket → TokenKind
  | .round => .groupEnd
  | .brace => .blockEnd

/-! ## Tokens -/

/-- One word of a circuit description. -/
inductive Token
  | comment (multiline : Bool) (text : String)
  | connective (op : Connective)
  | negation
  | groupOpen
  /-- The header of a block, up to its brace. -/
  | blockOpen (name : String) (params : List String)
  | close (bracket : Bracket)
  | returns
  | imports (path : String)
  /-- The names of an assignment, up to its equals sign. -/
  | assignment (names : List String)
  | identifier (name : String)
  | literal (value : Bool)
deriving DecidableEq

/-- The kind of a token. -/
def Token.kind : Token → TokenKind
  | .comment true _ => .multilineComment
  | .comment false _ => .lineComment
  | .connective op => op.kind
  | .negation => .negation
  | .groupOpen => .group
  | .blockOpen _ _ => .block
  | .close bracket => bracket.closing
  | .returns => .returns
  | .imports _ => .imports
  | .assignment _ => .assignment
  | .identifier _ => .identifier
  | .literal _ => .literal

end Gatework
