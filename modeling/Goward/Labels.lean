/-!
# Labels

The labels of one scope are numbered from 1. Some of them are checkpoints, at which a suspended frame
is entered again. Every loop has a label at its start and one behind its end; the loops that are open
form a stack. The code of a body is laid out with numbers that have no limit, since each of them stands
in its text. Labels that are taken one by one, in any order and however often, come from a counter that
is 32 bits wide: it starts over at 0 behind its last number.
-/

namespace Goward

/-- The labels of a loop. -/
structure Loop where
  /-- Where `continue` goes. -/
  start : Nat
  /-- Where `break` goes. -/
  stop : Nat
  deriving DecidableEq

/-- The labels given out so far and the loops that are open. -/
structure Labels where
  /-- The number of the latest label. -/
  count : Nat := 0
  /-- The checkpoints, in ascending order. -/
  checkpoints : List Nat := []
  /-- The open loops, the innermost first. -/
  loops : List Loop := []
  deriving DecidableEq

namespace Labels

/-- The next label. -/
def fresh (l : Labels) : Nat × Labels := (l.count + 1, { l with count := l.count + 1 })

/-- The next label, as a checkpoint. -/
def checkpoint (l : Labels) : Nat × Labels :=
  (l.count + 1, { l with count := l.count + 1, checkpoints := l.checkpoints ++ [l.count + 1] })

/-- Opens a loop with the next two labels. -/
def openLoop (l : Labels) : Loop × Labels :=
  let loop : Loop := ⟨l.count + 1, l.count + 2⟩
  (loop, { l with count := l.count + 2, loops := loop :: l.loops })

/-- Puts a number into an ascending list, unless it is there. -/
def insertAscending (n : Nat) : List Nat → List Nat
  | [] => [n]
  | m :: rest =>
    if n < m then n :: m :: rest else if n = m then m :: rest else m :: insertAscending n rest

/-- Takes the next number of the counter, which may be for a checkpoint. -/
def take (l : Labels) (isCheckpoint : Bool) : Nat × Labels :=
  let n := (l.count + 1) % UInt32.size
  (n, { l with
    count := n
    checkpoints := if isCheckpoint then insertAscending n l.checkpoints else l.checkpoints })

/-- Opens a loop with the next two numbers of the counter. -/
def takeLoop (l : Labels) : Loop × Labels :=
  let start := l.take false
  let stop := start.2.take false
  let loop : Loop := ⟨start.1, stop.1⟩
  (loop, { stop.2 with loops := loop :: l.loops })

/-- The innermost open loop. -/
def innermost? (l : Labels) : Option Loop := l.loops.head?

/-- Closes the innermost loop. -/
def closeLoop (l : Labels) : Labels := { l with loops := l.loops.tail }

end Labels

end Goward
