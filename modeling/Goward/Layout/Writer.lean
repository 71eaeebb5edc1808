import Goward.Layout.Fragment
import Goward.Registry
import Goward.Text.Basic

/-!
# Layout of Go text

A writer holds Go text and an indentation level. What is put into it is laid out line by line: blank
lines are left out and the others are indented with tabs. Operations that act on a writer are data,
so that they can be built first and run later.
-/

namespace Goward.Layout

/-- Indents the lines of a text and leaves out the blank ones. -/
def indented (level : Nat) (s : List Char) : List Char :=
  ((Text.lines s).filter (!·.all Text.isBlank)).flatMap fun line =>
    List.replicate level '\t' ++ line ++ ['\n']

/-- Go text and the level at which it goes on. -/
structure Writer where
  text : String := ""
  level : Nat := 0

/-- An operation on a writer. -/
inductive Op
  | put (f : Fragment)
  | indent (n : Nat)
  /-- Moves to the left, at most to the margin. -/
  | dedent (n : Nat)
  /-- Runs operations at another level, at the margin if that would be to its left, and comes back. -/
  | within (shift : Int) (ops : List Op)

namespace Writer

/-- Lays out a text at a level. -/
def writeAt (w : Writer) (level : Nat) (s : String) : Writer :=
  { w with text := w.text ++ String.ofList (indented level s.toList) }

/-- Lays out a text at the current level. -/
def write (w : Writer) (s : String) : Writer := w.writeAt w.level s

mutual

/-- Runs an operation. -/
def run : Op → Writer → Writer
  | .put f, w => w.writeAt (f.level w.level) f.text
  | .indent n, w => { w with level := w.level + n }
  | .dedent n, w => { w with level := w.level - n }
  | .within shift ops, w =>
    { runAll ops { w with level := (w.level + shift).toNat } with level := w.level }

/-- Runs operations one after another. -/
def runAll : List Op → Writer → Writer
  | [], w => w
  | op :: ops, w => runAll ops (run op w)

end

end Writer

/-- The text that operations write when they start at a level. -/
def render (level : Nat) (ops : List Op) : String := (Writer.runAll ops { level }).text

namespace Op

/-- Writes text as it stands. -/
def raw (s : String) : Op := .put (.raw s)

/-- A loop around a body that enters a frame again at the checkpoint where it was left. Labels stand
one level to the left of the body, so the body is in line with the dispatch. -/
def dispatch (checkpoints : List Nat) (body : String) : List Op :=
  let entry (n : Nat) : Op :=
    raw ("case " ++ toString n ++ ": goto Label" ++ toString n)
  [raw "for ; πF.State() >= 0; πF.PopCheckpoint() \x7b",
    .within 1 ([raw "switch πF.State() \x7b", raw "case 0:"] ++ checkpoints.map entry ++
      [raw "default: panic(\"unexpected function state\")", raw "\x7d", .within (-1) [raw body]]),
    raw "\x7d"]

/-- An import declaration, in the order of the paths; nothing if there are no packages. -/
def imports (packages : List Package) : List Op :=
  if packages.isEmpty then []
  else
    let entry (p : Package) : Op := raw (p.goName ++ " \"" ++ p.name ++ "\"")
    [raw "import (", .within 1 ((Text.sortByKey (·.name) packages).map entry), raw ")"]

end Op

end Goward.Layout
