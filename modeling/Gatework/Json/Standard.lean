import Gatework.Json.Reader
import Gatework.Json.Writer

/-!
# The standard library for JSON

`standard` is the library for JSON that summaries are written and read with.  Its values
are those of `Value`.
-/

namespace Gatework.Json

/-- The library that reads with `parse` and writes with `Value.write`. -/
def standard : Library Value Error where
  null := .null
  array := .array
  newObject := .object []
  set := Value.set
  ofWord32 n := .ofNat n.toNat
  ofWord64 := .ofNat
  ofText := .string
  ofFlag := .bool
  isNull := Value.isNull
  isArray := Value.isArray
  isObject := Value.isObject
  items := Value.items
  member := Value.member
  word32? := Value.word32?
  word64? := Value.word64?
  text? := Value.text?
  flag? := Value.flag?
  parse := parse
  write := Value.write

end Gatework.Json
