import Goward.Pool
import Goward.Registry
import Goward.Variable

/-!
# Values

The operands of generated code. A value is a Go expression that can be written any number of times:
it has no effect, and what it denotes changes only with the variable that it names.
-/

namespace Goward.Code

/-- An operand. -/
inductive Value
  | temp (t : Temp)
  /-- The slot of a local name. -/
  | slot (x : String)
  | str (s : StringRef)
  | int (n : Int)
  /-- The object `None`. -/
  | noneObject
  /-- An element of an array that a scratch variable holds. -/
  | item (t : Temp) (index : Nat)
  /-- Any other expression, by its text. -/
  | verbatim (s : String)
  deriving DecidableEq

namespace Value

/-- The Go expression. -/
def text : Value → String
  | temp t => t.name
  | slot x => slotName x
  | str s => s.text ++ ".ToObject()"
  | int n => "πg.NewInt(" ++ toString n ++ ").ToObject()"
  | noneObject => "πg.None"
  | item t index => t.name ++ "[" ++ toString index ++ "]"
  | verbatim s => s

/-- The scratch variable that a value is; an element of one is another value. -/
def temp? : Value → Option Temp
  | temp t => some t
  | _ => none

/-- The scratch variables that the expression mentions. -/
def temps : Value → List Temp
  | temp t => [t]
  | item t _ => [t]
  | _ => []

end Value

/-- Expressions with commas between them. -/
def commaList (xs : List String) : String := ", ".intercalate xs

/-- The Go expressions of some values with commas between them. -/
def valueList (vs : List Value) : String := commaList (vs.map Value.text)

end Goward.Code
