import Goward.Binding
import Goward.Error
import Goward.Variable

/-!
# Classification

Where the names of a function or class body live. Parameters come first, in the order of their
arguments; then the events of the body are taken in turn. A name that is bound becomes local unless
it is known already, and a name can be declared global only as long as it is neither a parameter nor
local.
-/

namespace Goward

namespace VarMap

/-- Takes one event into account. -/
def observe (m : VarMap) : Event → Except Error VarMap
  | .bind x => .ok <| if (m.find? x).isSome then m else m.add x .local
  | .global x span =>
    match m.find? x with
    | some (.param _) => .error ⟨.parameterAndGlobal x, some span⟩
    | some .local => .error ⟨.usedPriorToGlobal x, some span⟩
    | some .global => .ok m
    | none => .ok (m.add x .global)

/-- Takes events into account, one after another. -/
def observeAll : VarMap → List Event → Except Error VarMap
  | m, [] => .ok m
  | m, e :: rest => m.observe e >>= (observeAll · rest)

/-- Adds parameters, the first of which takes the argument at the given position. -/
def addParams : VarMap → Nat → List Parameter → Except Error VarMap
  | m, _, [] => .ok m
  | m, index, p :: rest =>
    if (m.find? p.name).isSome then .error ⟨.duplicateArgument p.name, some p.span⟩
    else addParams (m.add p.name (.param index)) (index + 1) rest

end VarMap

/-- What is known about a function before code is generated for it. -/
structure FunctionVars where
  vars : VarMap
  isGenerator : Bool
  deriving DecidableEq

/-- Classifies a function. -/
def classifyFunction (params : Parameters) (body : List Stmt) : Except Error FunctionVars := do
  let args ← VarMap.addParams {} 0 params.toList
  let vars ← args.observeAll (Stmt.eventsOfBody body)
  return { vars, isGenerator := Stmt.anyYields body }

/-- Classifies a class body. -/
def classifyClass (body : List Stmt) : Except Error VarMap :=
  VarMap.observeAll {} (Stmt.eventsOfBody body)

end Goward
