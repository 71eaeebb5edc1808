import Goward.Lowering.Import
import Goward.Source.LineMap

/-!
# Lowering of statements

The structured code of statements and bodies. A statement gives back every scratch variable that it
takes into use. If it fails, the error gets its place, unless a statement inside it has given it one.
-/

namespace Goward

open Goward.Code

/-- A source text and its lines. -/
structure SourceText where
  text : String
  lines : LineMap

/-- The source text with the given content. -/
def SourceText.ofText (text : String) : SourceText := ⟨text, .ofText text⟩

/-- The line of a source text with the given number, counted from 0. -/
def SourceText.lineAt (s : SourceText) (line : Nat) : String := s.lines.lineText s.text line

/-- What lowering looks up. -/
structure Context where
  options : Options
  /-- If it is known, statements are preceded by the lines that they come from. -/
  source : Option SourceText

namespace Build

/-- Puts down the line of the source that a statement comes from, if both are known. The number of the
line is counted from 1 there, and it is 32 bits wide. -/
def annotate (cx : Context) (span : Span) : Build Unit :=
  match cx.source with
  | none => return ()
  | some source =>
    if span.isEmpty then return ()
    else
      let line := source.lines.lineOf span.start
      act (.sourceLine ((line + 1) % UInt32.size) (source.lineAt line))

/-- The scratch variables that a scope has made. -/
def declaredTemps (id : Nat) : Build (List Temp) := do
  return ((← tree).resources id).pool.temps

/-- Evaluates a test and stores whether it holds. -/
def lowerTest (id : Nat) (test : Expr) : Build (Value × Temp) := do
  let v ← lowerExpr id test
  let cond ← callInto id "bool" (.isTrue v)
  return (v, cond)

/-- Gives back what a test has taken into use. -/
def releaseTest (id : Nat) (tested : Value × Temp) : Build Unit := do
  releaseValue id tested.1
  release id tested.2

/-- Stores the result of an operation on a name and a value in the name. -/
def updateName (id : Nat) (x : String) (op : BinOp) (value : Expr) : Build Unit := do
  let l ← readName id x
  let r ← lowerExpr id value
  let result ← callInto id Temp.objectType (.inplace op l r)
  releaseAll id [l, r]
  storeName id x (.temp result)
  release id result

/-- Returns from a function. A generator returns no value. -/
def lowerReturn (id : Nat) (value : Option Expr) : Build Unit := do
  match ((← tree).scope? id).bind (·.function?) with
  | none => fail .returnOutsideFunction
  | some f =>
    match value, f.isGenerator with
    | none, true => emit (.ret none)
    | some _, true => fail (.unsupported "'return' with a value inside a generator")
    | none, false => emit (.ret (some .noneObject))
    | some e, false => do
      let v ← lowerExpr id e
      emit (.ret (some v))
      releaseValue id v

/-- The code of a body that runs to its end leaves it: a function with `None`, any other body and a
generator without a value. -/
def bodyWithEnd (returnsNone : Bool) (body : Build Unit) : Build (List Step) :=
  codeOf do
    body
    emit (.ret (if returnsNone then some .noneObject else none))

/-- What the code of a function says about it. -/
def functionHeader (name : String) (params : Parameters) (f : FunctionVars) : FunctionHeader where
  name := name
  params := params.positional.map (·.name)
  takesRest := params.rest.isSome
  takesKeywords := params.keywords.isSome
  slots := f.vars.slots
  isGenerator := f.isGenerator

/-- Defines a function; `body` lowers its body in its own scope. -/
def defineFunction (id : Nat) (name : String) (params : Parameters) (f : FunctionVars)
    (body : Nat → Build Unit) : Build Unit := do
  let inner ← onTree (·.pushFunction id name f)
  let steps ← bodyWithEnd (!f.isGenerator) (body inner)
  let temps ← declaredTemps inner
  let fn ← acquire id Temp.objectType
  emit (.function fn (functionHeader name params f) temps steps)
  storeName id name (.temp fn)
  release id fn

/-- Defines a class; `body` lowers its body in its own scope. The body runs on a new dictionary,
from which the class is then made. -/
def defineClass (cx : Context) (id : Nat) (name : String) (bases : List Expr) (vars : VarMap)
    (body : Nat → Build Unit) : Build Unit := do
  let vs ← lowerExprs id bases
  let tuple ← acquire id Temp.objectType
  act (.construct tuple (.tuple vs))
  releaseAll id vs
  let names ← acquire id "*πg.Dict"
  act (.construct names .dict)
  let module ← intern cx.options.moduleName
  act (.perform (.setModule names module))
  let inner ← onTree (·.pushClass id name vars)
  let steps ← bodyWithEnd false (body inner)
  let temps ← declaredTemps inner
  let code ← acquire id "*πg.Code"
  emit (.classBody code name names temps steps)
  act (.discard (.evalCode code))
  let key ← intern name
  let cls ← callInto id Temp.objectType (.newClass key tuple names)
  storeName id name (.temp cls)
  releaseAll id [.temp cls, .temp code, .temp names, .temp tuple]

end Build

open Build

mutual

/-- Lowers a statement in a scope; `inLoop` tells whether a loop of the same scope is around it. -/
def lowerStmt (cx : Context) (id : Nat) (inLoop : Bool) : Stmt → Build Unit
  | .mk span kind => do
    annotate cx span
    locate span (lowerKind cx id inLoop kind)

/-- Lowers what a statement does. -/
def lowerKind (cx : Context) (id : Nat) (inLoop : Bool) : StmtKind → Build Unit
  | .assign targets value => do
    let v ← lowerExpr id value
    storeIntoAll id v targets
    releaseValue id v
  | .augAssign (.name x) op value => updateName id x op value
  | .augAssign _ _ _ => fail (.unsupported "augmented assignment to this target")
  | .delete targets => deleteAll id targets
  | .global _ => return ()
  | .imports names => importModules id names
  | .importsFrom path names level => importFrom id path names level
  | .functionDef name params body => do
    let f ← lift (classifyFunction params body)
    defineFunction id name params f fun inner => lowerBody cx inner false body
  | .classDef name bases body => do
    let vars ← lift (classifyClass body)
    defineClass cx id name bases vars fun inner => lowerBody cx inner false body
  | .forEach target iter body orelse => do
    let v ← lowerExpr id iter
    let iterator ← callInto id Temp.objectType (.iter v)
    releaseValue id v
    let item ← acquire id Temp.objectType
    let bind ← codeOf do
      storeInto id (.temp item) target
      release id item
    let steps ← codeOf (lowerBody cx id true body)
    let other ← lowerElse cx id inLoop orelse
    emit (.forLoop iterator item bind steps other)
    release id iterator
  | .whileLoop test body orelse => do
    let (tested, check) ← collect (lowerTest id test)
    let steps ← codeOf do
      releaseTest id tested
      lowerBody cx id true body
    let other ← lowerElse cx id inLoop orelse
    emit (.whileLoop check tested.2 steps other)
  | .branch test body orelse => do
    let (tested, check) ← collect (lowerTest id test)
    let steps ← codeOf do
      releaseTest id tested
      lowerBody cx id inLoop body
    let other ← lowerElse cx id inLoop orelse
    emit (.branch check tested.2 steps other)
  | .withItems _ _ => fail (.unsupported "'with' statement")
  | .tryExcept _ _ _ _ => fail (.unsupported "'try' statement")
  | .ret value => lowerReturn id value
  | .expr value => do
    let v ← lowerExpr id value
    releaseValue id v
  | .breakLoop => if inLoop then emit .breakLoop else fail (.loopControlOutsideLoop "break")
  | .continueLoop =>
    if inLoop then emit .continueLoop else fail (.loopControlOutsideLoop "continue")
  | .pass => return ()

/-- Lowers the other side of a branch or a loop. A side without statements is none at all. -/
def lowerElse (cx : Context) (id : Nat) (inLoop : Bool) : List Stmt → Build (Option (List Step))
  | [] => return none
  | s :: rest => do
    let steps ← codeOf do
      lowerStmt cx id inLoop s
      lowerBody cx id inLoop rest
    return some steps

/-- Lowers statements one after another. -/
def lowerBody (cx : Context) (id : Nat) (inLoop : Bool) : List Stmt → Build Unit
  | [] => return ()
  | s :: rest => do
    lowerStmt cx id inLoop s
    lowerBody cx id inLoop rest

end

end Goward
