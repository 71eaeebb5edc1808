import Goward.Code.Linear
import Goward.Lowering.Stmt

/-!
# Interpretation of statements

What a body does, by the structure of its statements: which fragments of its code run, and in which
order. The fragments of a statement are those that are generated for it where it stands; how control
passes between statements is said here, without labels and jumps. What a test decides, and whether
an iterator has an item, is left to an oracle, and a generator that is suspended is resumed.
-/

namespace Goward

open Goward.Build

namespace Code

/-- Something that the code of a body does. -/
inductive Effect
  /-- A fragment runs that does not jump. -/
  | ran (i : Instr)
  /-- An iterator is asked for its next item. -/
  | next (item iterator : Temp)
  /-- A generator is suspended with a value, and then resumed. -/
  | suspended (v : Option Value)
  | returned (v : Option Value)

/-- Decides a test or whether there is an item, by what happened so far. -/
def Oracle := List Effect → Bool

/-- How a run ends. -/
inductive Outcome
  | done
  | broke
  | continued
  /-- The body is left. -/
  | left
  /-- The run was cut short because a loop took too many rounds. -/
  | cut
  deriving DecidableEq

/-- A run of a piece of code, by how many rounds a loop may take and what happened before. -/
def Run := Nat → List Effect → Outcome × List Effect

namespace Run

/-- Ends at once. -/
def stop (o : Outcome) : Run := fun _ h => (o, h)

def skip : Run := stop .done

def emit (es : List Effect) : Run := fun _ h => (.done, h ++ es)

/-- One run after another. The second one is left out if the first one does not end normally. -/
def seq (a b : Run) : Run := fun n h =>
  match a n h with
  | (.done, h) => b n h
  | r => r

/-- One of two runs, as the oracle decides. -/
def choose (ω : Oracle) (a b : Run) : Run := fun n h => if ω h then a n h else b n h

/-- The body of a loop, with what comes after a round. A `continue` ends the round and a `break` the
loop. -/
def round (body next : Run) : Run := fun n h =>
  match body n h with
  | (.done, h) => next n h
  | (.continued, h) => next n h
  | (.broke, h) => (.done, h)
  | r => r

/-- Rounds of a loop, each of which begins with its head. When the oracle decides against another
round, the other side of the loop runs, which is not part of the loop any more. -/
def rounds (ω : Oracle) (head body orelse : Run) : Nat → Run
  | 0 => stop .cut
  | k + 1 => head.seq (choose ω (round body (rounds ω head body orelse k)) orelse)

/-- A loop. -/
def loop (ω : Oracle) (head body orelse : Run) : Run := fun n => rounds ω head body orelse n n

end Run

/-- What happens at a step without control structure. -/
def Step.effects : Step → List Effect
  | .action a => if a.fragment?.isSome then [.ran (.action a)] else []
  | .suspend v => [.suspended (some v)]
  | .ret v => [.returned v]
  | .function dst header temps body =>
    (Step.linear (.function dst header temps body) {}).1.map .ran
  | .classBody dst name names temps body =>
    (Step.linear (.classBody dst name names temps body) {}).1.map .ran
  | .breakLoop | .continueLoop | .branch _ _ _ _ | .whileLoop _ _ _ _ | .forLoop _ _ _ _ _ => []

/-- What happens in code without control structure. -/
def Run.ofCode (code : List Step) : Run := .emit (code.flatMap Step.effects)

end Code

open Goward.Code

namespace Build

/-- Makes the iterator of a loop and room for an item, in this order. -/
def startLoop (id : Nat) (iter : Expr) : Build (Temp × Temp) := do
  let v ← lowerExpr id iter
  let iterator ← callInto id Temp.objectType (.iter v)
  releaseValue id v
  let item ← acquire id Temp.objectType
  return (iterator, item)

/-- Puts an item where the target of the loop says. -/
def bindItem (id : Nat) (item : Temp) (target : Expr) : Build Unit := do
  storeInto id (.temp item) target
  release id item

end Build

mutual

/-- The run of a statement in a scope. -/
def Stmt.interpret (cx : Context) (id : Nat) (ω : Oracle) : Stmt → Build Run
  | .mk span kind => do
    let comment ← codeOf (annotate cx span)
    let run ← locate span (kind.interpret cx id ω)
    return (Run.ofCode comment).seq run

/-- The run of what a statement does. -/
def StmtKind.interpret (cx : Context) (id : Nat) (ω : Oracle) : StmtKind → Build Run
  | .branch test body orelse => do
    let (tested, check) ← collect (lowerTest id test)
    releaseTest id tested
    let body ← Stmt.interpretBody cx id ω body
    let orelse ← Stmt.interpretBody cx id ω orelse
    return (Run.ofCode check).seq (.choose ω body orelse)
  | .whileLoop test body orelse => do
    let (tested, check) ← collect (lowerTest id test)
    releaseTest id tested
    let body ← Stmt.interpretBody cx id ω body
    let orelse ← Stmt.interpretBody cx id ω orelse
    return .loop ω (.ofCode check) body orelse
  | .forEach target iter body orelse => do
    let ((iterator, item), setup) ← collect (startLoop id iter)
    let bind ← codeOf (bindItem id item target)
    let body ← Stmt.interpretBody cx id ω body
    let orelse ← Stmt.interpretBody cx id ω orelse
    release id iterator
    return (Run.ofCode setup).seq
      (.loop ω (.emit [.next item iterator]) ((Run.ofCode bind).seq body) orelse)
  | .breakLoop => return .stop .broke
  | .continueLoop => return .stop .continued
  | .ret value => do
    let code ← codeOf (lowerReturn id value)
    return (Run.ofCode code).seq (.stop .left)
  | kind => do
    let code ← codeOf (lowerKind cx id false kind)
    return .ofCode code

/-- The run of statements one after another. -/
def Stmt.interpretBody (cx : Context) (id : Nat) (ω : Oracle) : List Stmt → Build Run
  | [] => return .skip
  | s :: rest => do
    let first ← s.interpret cx id ω
    let others ← Stmt.interpretBody cx id ω rest
    return first.seq others

end

/-- The run of a body that is left when it comes to its end. -/
def Build.interpretWhole (cx : Context) (id : Nat) (ω : Oracle) (returnsNone : Bool)
    (body : List Stmt) : Build Run := do
  let run ← Stmt.interpretBody cx id ω body
  return run.seq ((Run.emit [.returned (if returnsNone then some .noneObject else none)]).seq
    (.stop .left))

end Goward
