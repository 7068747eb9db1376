import Gatework.Json.Reader
import Gatework.Netlist.Gate
import Gatework.Text.Quoted

/-!
# Faults of a summary

The reasons why bytes are no summary of a netlist.

There are two groups.

* `Subject` is a part of a summary, `SchemaError` is what is wrong with one, and
  `SummaryError` is any reason.
* The words for each of them.
-/

namespace Gatework

/-! ## Faults -/

/-- A part of a summary, with its identifier once that has been read. -/
inductive Subject
  | summary
  | outputs
  | gate (id : Option GateId)
  | wire (id : Option WireId)
  | context (id : Option ContextId)
deriving DecidableEq

/-- What is wrong with a part of a summary. -/
inductive SchemaError
  | notAnObject
  | memberMissing (subject : Subject) (name : String)
  | notAnArray (name : String)
  | notAnId (subject : Subject) (name : String)
  | malformedReference (subject : Subject)
  | expectedArray (subject : Subject)
  | nonTextType (subject : Subject)
  | unknownType (subject : Subject) (tag : String)
deriving DecidableEq

/-- The reason why bytes are no summary, with the reasons why a text is no JSON. -/
inductive SummaryError (E : Type := Json.Error)
  /-- The bytes cannot be had as text. -/
  | unreadable (reason : String)
  | json (error : E)
  | schema (error : SchemaError)
deriving DecidableEq

/-! ## Messages -/

/-- The name of a part. -/
def Subject.text : Subject → String
  | .summary => "summary"
  | .outputs => "summary outputs"
  | .gate none => "gate"
  | .gate (some id) => "gate " ++ id.text
  | .wire none => "wire"
  | .wire (some id) => "wire " ++ id.text
  | .context none => "context"
  | .context (some id) => "context " ++ id.text

/-- The words for a fault of a part. -/
def SchemaError.message : SchemaError → String
  | .notAnObject => "summary is not an object"
  | .memberMissing subject name => subject.text ++ " is missing " ++ Text.quoted name
  | .notAnArray name => "summary member " ++ Text.quoted name ++ " is not an array"
  | .notAnId subject name => subject.text ++ " field " ++ Text.quoted name ++ " is not an id"
  | .malformedReference subject => subject.text ++ " has a malformed wire reference"
  | .expectedArray subject => subject.text ++ " expected an array"
  | .nonTextType subject => subject.text ++ " has a non-string type"
  | .unknownType subject tag => subject.text ++ ": " ++ GateKind.unknownTagMessage tag

namespace SummaryError

variable {E : Type} [ToString E]

/-- The words for the cause of a reason, if it has one of its own. -/
def cause? : SummaryError E → Option String
  | .unreadable reason => some reason
  | .json error => some (toString error)
  | .schema _ => none

/-- The words for a reason. -/
def message : SummaryError E → String
  | .unreadable reason => "i/o error: " ++ reason
  | .json error => "json error: " ++ toString error
  | .schema error => "schema error: " ++ error.message

end SummaryError

end Gatework
