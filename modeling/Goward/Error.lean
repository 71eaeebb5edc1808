import Goward.Diagnostic

/-!
# Errors

An error is a cause and, once it is known, the place of the fault. Each cause has a message of its
own and an entry in the table of diagnostics.
-/

namespace Goward

/-- Why a unit cannot be compiled. -/
inductive Cause
  /-- A parameter has the name of an earlier one. -/
  | duplicateArgument (name : String)
  /-- A parameter is declared global. -/
  | parameterAndGlobal (name : String)
  /-- A name is declared global after it was bound. -/
  | usedPriorToGlobal (name : String)
  /-- A function deletes a name that it never binds. -/
  | deleteNonexistentLocal (name : String)
  /-- A function stores a name that its classification does not list. -/
  | unclassifiedName (name : String)
  /-- A scratch variable is given back that is not in use. -/
  | tempNotInUse (name : String)
  | returnOutsideFunction
  /-- A `break` or `continue` outside every loop of its scope. -/
  | loopControlOutsideLoop (keyword : String)
  /-- A construct that has no code. -/
  | unsupported (what : String)
  deriving DecidableEq

namespace Cause

/-- The message of a cause. -/
def message : Cause → String
  | duplicateArgument name => "duplicate argument '" ++ name ++ "' in function definition"
  | parameterAndGlobal name => "name '" ++ name ++ "' is parameter and global"
  | usedPriorToGlobal name => "name '" ++ name ++ "' is used prior to global declaration"
  | deleteNonexistentLocal name => "cannot delete nonexistent local: " ++ name
  | unclassifiedName name => "name '" ++ name ++ "' was not classified in this scope"
  | tempNotInUse name => "scratch variable '" ++ name ++ "' is not in use"
  | returnOutsideFunction => "'return' outside function"
  | loopControlOutsideLoop keyword => "'" ++ keyword ++ "' not properly in loop"
  | unsupported what => what ++ " is not supported"

/-- The entry of a cause in the table of diagnostics. -/
def template : Cause → Template
  | duplicateArgument _ => .duplicateArgument
  | parameterAndGlobal _ => .parameterAndGlobal
  | usedPriorToGlobal _ => .usedPriorToGlobal
  | deleteNonexistentLocal _ => .deleteNonexistentLocal
  | unclassifiedName _ => .unclassifiedName
  | tempNotInUse _ => .tempNotInUse
  | returnOutsideFunction => .returnOutsideFunction
  | loopControlOutsideLoop _ => .loopControlOutsideLoop
  | unsupported _ => .unsupported

/-- What is put into the entry. -/
def args : Cause → List String
  | duplicateArgument name | parameterAndGlobal name | usedPriorToGlobal name
  | deleteNonexistentLocal name | unclassifiedName name | tempNotInUse name => [name]
  | returnOutsideFunction => []
  | loopControlOutsideLoop keyword => [keyword]
  | unsupported what => [what]

/-- Whether a fault of this cause has a place in the source. A scratch variable has none. -/
def isLocated : Cause → Bool
  | tempNotInUse _ => false
  | _ => true

end Cause

/-- A fault and its place. -/
structure Error where
  cause : Cause
  span : Option Span := none
  deriving DecidableEq

namespace Error

/-- The message of an error. -/
def message (e : Error) : String := e.cause.message

/-- Gives an error a place, unless it already has one or its cause has none. -/
def locate (e : Error) (span : Span) : Error :=
  if e.cause.isLocated then { e with span := e.span.or (some span) } else e

/-- The report of an error in a file. -/
def diagnostic (e : Error) (file : String) : Diagnostic :=
  .ofTemplate file e.span e.cause.template e.cause.args

end Error

end Goward
