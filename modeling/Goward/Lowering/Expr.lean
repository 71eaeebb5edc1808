import Goward.Scope.Names

/-!
# Lowering of expressions

The code that evaluates an expression, from left to right, and the value that then holds the result.
If that value is a scratch variable it is in use, and whoever consumes it gives it back. The operands
of an operation stay in use until the code of the operation is put down.
-/

namespace Goward

open Goward.Code

namespace Build

/-- Makes a value in a fresh scratch variable and gives the operands back. -/
def constructFrom (id : Nat) (k : Construction) (operands : List Value) : Build Value := do
  let t ← acquire id Temp.objectType
  act (.construct t k)
  releaseAll id operands
  return .temp t

/-- Calls the runtime for a result in a fresh scratch variable and gives the operands back. -/
def callWith (id : Nat) (c : Call) (operands : List Value) : Build Value := do
  let t ← callInto id Temp.objectType c
  releaseAll id operands
  return .temp t

/-- Suspends a generator with a value and takes what it is sent. -/
def suspend (id : Nat) (v : Value) : Build Value := do
  emit (.suspend v)
  releaseValue id v
  constructFrom id .received []

/-- Fails unless the scope is the body of a generator. -/
def requireGenerator (id : Nat) : Build Unit := do
  require (((← tree).scope? id).any (·.isGenerator)) (.unsupported "'yield' outside function")

end Build

open Build

mutual

/-- Lowers an expression in a scope. -/
def lowerExpr (id : Nat) : Expr → Build Value
  | .name x => readName id x
  | .str s => do return .str (← intern s)
  | .int n => return .int n
  | .tuple elts => do
    let vs ← lowerExprs id elts
    constructFrom id (.tuple vs) vs
  | .list elts => do
    let vs ← lowerExprs id elts
    constructFrom id (.list vs) vs
  | .attr obj name => do
    let v ← lowerExpr id obj
    let attr ← intern name
    callWith id (.getAttr v attr) [v]
  | .call fn args => do
    let f ← lowerExpr id fn
    let vs ← lowerExprs id args
    callWith id (.invoke f vs) (f :: vs)
  | .binop left op right => do
    let l ← lowerExpr id left
    let r ← lowerExpr id right
    callWith id (.binary op l r) [l, r]
  | .yield none => do
    requireGenerator id
    suspend id .noneObject
  | .yield (some value) => do
    requireGenerator id
    let v ← lowerExpr id value
    suspend id v

/-- Lowers expressions from left to right. -/
def lowerExprs (id : Nat) : List Expr → Build (List Value)
  | [] => return []
  | e :: rest => do
    let v ← lowerExpr id e
    let vs ← lowerExprs id rest
    return v :: vs

end

end Goward
