import Goward.Code.Action

/-!
# Structured code

The code of a body with its control structure: branches, loops, suspensions and returns, and in
between the actions. Nested functions and classes carry their own bodies.
-/

namespace Goward.Code

/-- What the code of a function says about it besides its body. -/
structure FunctionHeader where
  name : String
  /-- The names of the positional parameters. -/
  params : List String
  /-- Whether there is a parameter for further positional arguments. -/
  takesRest : Bool
  /-- Whether there is a parameter for further keyword arguments. -/
  takesKeywords : Bool
  /-- The names that have a slot, each with what the slot holds at entry. -/
  slots : List (String × SlotInit)
  isGenerator : Bool
  deriving DecidableEq

/-- A step of structured code. -/
inductive Step
  | action (a : Action)
  /-- Suspends a generator with a value; it resumes behind the step. -/
  | suspend (v : Value)
  /-- Leaves the body, with a value or without any. -/
  | ret (v : Option Value)
  | breakLoop
  | continueLoop
  /-- Runs the test, then one side, by the condition that the test has stored. -/
  | branch (test : List Step) (cond : Temp) (body : List Step) (orelse : Option (List Step))
  /-- Runs the test and the body in turn while the condition holds, and then the other side. -/
  | whileLoop (test : List Step) (cond : Temp) (body : List Step) (orelse : Option (List Step))
  /-- Takes items from an iterator. Each is bound before the body runs. When there are no more, the
  other side runs. -/
  | forLoop (iterator item : Temp) (bind body : List Step) (orelse : Option (List Step))
  /-- Makes a function object. The scratch variables are those of its body. -/
  | function (dst : Temp) (header : FunctionHeader) (temps : List Temp) (body : List Step)
  /-- Makes the code object of a class body, which fills a namespace. -/
  | classBody (dst : Temp) (name : String) (names : Temp) (temps : List Temp) (body : List Step)

/-- The fragments of straight-line code. Steps with control structure have none of their own. -/
def Step.fragments (code : List Step) : List Layout.Fragment :=
  code.filterMap fun
    | .action a => a.fragment?
    | _ => none

end Goward.Code
