import Gatework.Expansion
import Gatework.Forest

/-!
# Netlists from texts

There is one group.

* `Netlist.ofText` reads a circuit description and expands it, and
  `ProgramError` says which of the two failed.
-/

namespace Gatework

/-- The reason why a text has no netlist. -/
inductive ProgramError
  | forest (error : ForestError)
  | expansion (halt : Halt)

/-- The words for the reason. -/
def ProgramError.message : ProgramError → String
  | .forest error => error.message
  | .expansion halt => halt.message

/-- The netlist of a text. -/
def Netlist.ofText (origin : Forest.Origin) (limit : UInt64) (text : String) :
    Except ProgramError Netlist := do
  let nodes ← (Forest.ofText origin text).mapError .forest
  (Netlist.ofForest limit nodes).mapError .expansion

end Gatework
