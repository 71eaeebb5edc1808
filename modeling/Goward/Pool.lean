import Goward.Error
import Goward.Text.Basic

/-!
# Scratch variables

A scope takes its scratch variables from a pool. A variable that was given back is handed out again
to the next request for its type, the one with the first name first; only if there is none is a new
variable made. Variables are numbered in the order in which they are made, so names depend on the
order of the requests alone.
-/

namespace Goward

/-- A scratch variable of the generated code. -/
structure Temp where
  name : String
  type : String
  deriving DecidableEq

namespace Temp

/-- The type of a variable that holds an object. -/
def objectType : String := "*πg.Object"

/-- A number with at least three digits. -/
def number (n : Nat) : String :=
  let digits := toString n
  String.ofList (List.replicate (3 - digits.length) '0') ++ digits

/-- The variable that is made as the `n`-th one. -/
def numbered (n : Nat) (type : String) : Temp := ⟨"πTemp" ++ number n, type⟩

/-- The declaration of a variable. -/
def declaration (t : Temp) : String := "var " ++ t.name ++ " " ++ t.type

end Temp

/-- A scratch variable and whether it is in use. -/
structure PoolEntry where
  temp : Temp
  inUse : Bool
  deriving DecidableEq

/-- The scratch variables made so far, in the order of their names. -/
structure Pool where
  entries : List PoolEntry := []
  deriving DecidableEq

namespace Pool

/-- How many variables were made. -/
def size (p : Pool) : Nat := p.entries.length

/-- The variables made so far, in the order of their names. -/
def temps (p : Pool) : List Temp := p.entries.map (·.temp)

/-- Whether a variable is in use. -/
def isInUse (p : Pool) (t : Temp) : Bool := p.entries.any fun e => e.inUse && e.temp == t

/-- The first variable of a type that is not in use. -/
def available? (p : Pool) (type : String) : Option Temp :=
  (p.entries.find? fun e => !e.inUse && e.temp.type == type).map (·.temp)

/-- Marks a variable as used or unused. -/
def mark (p : Pool) (t : Temp) (inUse : Bool) : Pool :=
  ⟨p.entries.map fun e => if e.temp = t then { e with inUse } else e⟩

/-- Hands out a variable of the given type. -/
def alloc (p : Pool) (type : String) : Temp × Pool :=
  match p.available? type with
  | some t => (t, p.mark t true)
  | none =>
    let t := Temp.numbered (p.size + 1) type
    (t, ⟨Text.insertByKey (·.temp.name) ⟨t, true⟩ p.entries⟩)

/-- Takes a variable back. It must be in use. -/
def free (p : Pool) (t : Temp) : Except Error Pool :=
  if p.isInUse t then .ok (p.mark t false) else .error { cause := .tempNotInUse t.name }

end Pool

end Goward
