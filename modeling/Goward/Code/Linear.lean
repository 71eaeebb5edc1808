import Goward.Code.Step
import Goward.Labels

/-!
# Linear code

Code without control structure: labels and jumps take its place, so that a suspended body can be
entered again at any label. Structured code becomes linear from left to right. A label gets its
number when the first step that needs it is reached: the labels of a branch or a loop before those
inside it, the label of a suspension when the value is at hand.
-/

namespace Goward.Code

/-- An instruction of linear code. -/
inductive Instr
  | action (a : Action)
  | label (n : Nat)
  | goto (n : Nat)
  /-- Jumps unless the condition holds. -/
  | gotoUnless (cond : Temp) (n : Nat)
  /-- Takes the next item from an iterator, and jumps if there is none. -/
  | next (item iterator : Temp) (exhausted : Nat)
  /-- Makes a checkpoint the place where the frame is entered next. -/
  | pushCheckpoint (n : Nat)
  | ret (v : Option Value)
  | function (dst : Temp) (header : FunctionHeader) (temps : List Temp) (checkpoints : List Nat)
    (body : List Instr)
  | classBody (dst : Temp) (name : String) (names : Temp) (temps : List Temp)
    (checkpoints : List Nat) (body : List Instr)

/-- A jump to a label of the innermost open loop. -/
def Instr.loopJump (label : Loop → Nat) (l : Labels) : List Instr :=
  (l.innermost?.map fun loop => Instr.goto (label loop)).toList

mutual

/-- The linear code of a step, and the labels after it. -/
def Step.linear : Step → Labels → List Instr × Labels
  | .action a, l => ([.action a], l)
  | .suspend v, l =>
    let resume := l.checkpoint
    ([.pushCheckpoint resume.1, .ret (some v), .label resume.1], resume.2)
  | .ret v, l => ([.ret v], l)
  | .breakLoop, l => (Instr.loopJump Loop.stop l, l)
  | .continueLoop, l => (Instr.loopJump Loop.start l, l)
  | .branch test cond body none, l =>
    let done := l.fresh
    let t := linearAll test done.2
    let b := linearAll body t.2
    (t.1 ++ [.gotoUnless cond done.1] ++ b.1 ++ [.label done.1], b.2)
  | .branch test cond body (some orelse), l =>
    let other := l.fresh
    let done := other.2.fresh
    let t := linearAll test done.2
    let b := linearAll body t.2
    let o := linearAll orelse b.2
    (t.1 ++ [.gotoUnless cond other.1] ++ b.1 ++ [.goto done.1, .label other.1] ++ o.1 ++
      [.label done.1], o.2)
  | .whileLoop test cond body none, l =>
    let loop := l.openLoop
    let t := linearAll test loop.2
    let b := linearAll body t.2
    ([.label loop.1.start] ++ t.1 ++ [.gotoUnless cond loop.1.stop] ++ b.1 ++
      [.goto loop.1.start, .label loop.1.stop], b.2.closeLoop)
  | .whileLoop test cond body (some orelse), l =>
    let loop := l.openLoop
    let other := loop.2.fresh
    let t := linearAll test other.2
    let b := linearAll body t.2
    let o := linearAll orelse b.2.closeLoop
    ([.label loop.1.start] ++ t.1 ++ [.gotoUnless cond other.1] ++ b.1 ++
      [.goto loop.1.start, .label other.1] ++ o.1 ++ [.goto loop.1.stop, .label loop.1.stop], o.2)
  | .forLoop iterator item bind body none, l =>
    let loop := l.openLoop
    let i := linearAll bind loop.2
    let b := linearAll body i.2
    ([.label loop.1.start, .next item iterator loop.1.stop] ++ i.1 ++ b.1 ++
      [.goto loop.1.start, .label loop.1.stop], b.2.closeLoop)
  | .forLoop iterator item bind body (some orelse), l =>
    let loop := l.openLoop
    let other := loop.2.fresh
    let i := linearAll bind other.2
    let b := linearAll body i.2
    let o := linearAll orelse b.2.closeLoop
    ([.label loop.1.start, .next item iterator other.1] ++ i.1 ++ b.1 ++
      [.goto loop.1.start, .label other.1] ++ o.1 ++ [.goto loop.1.stop, .label loop.1.stop], o.2)
  | .function dst header temps body, l =>
    let b := linearAll body {}
    ([.function dst header temps b.2.checkpoints b.1], l)
  | .classBody dst name names temps body, l =>
    let b := linearAll body {}
    ([.classBody dst name names temps b.2.checkpoints b.1], l)

/-- The linear code of some steps, and the labels after them. -/
def Step.linearAll : List Step → Labels → List Instr × Labels
  | [], l => ([], l)
  | s :: rest, l =>
    let a := s.linear l
    let b := linearAll rest a.2
    (a.1 ++ b.1, b.2)

end

end Goward.Code
