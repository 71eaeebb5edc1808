import Goward.Text.Basic
import Goward.Text.Quoted

/-!
# Line map

A line map holds the byte offsets at which the lines of a text start. It finds the line of a position
by a binary search and cuts a line out of a text. A newline ends a line here, and all carriage returns
at the end of a line are left out. Offsets are 32 bits wide: they start over in a text that is longer
than that.
-/

namespace Goward

/-- What a search for a number in a list answers. -/
inductive Search
  /-- The number stands at an index. -/
  | found (index : Nat)
  /-- The number is not there and belongs at an index. -/
  | missing (index : Nat)
  deriving DecidableEq

namespace Search

/-- Halves a range of a list, given by its first index and its size, until one number is left: in an
ascending list the last one of the range that is not greater than `n`, if there is one. -/
def narrow (xs : List Nat) (n base size : Nat) : Nat :=
  if size ≤ 1 then base
  else if xs[base + size / 2]?.any (· ≤ n) then narrow xs n (base + size / 2) (size - size / 2)
  else narrow xs n base (size - size / 2)
termination_by size

/-- Searches an ascending list for a number. -/
def binary (xs : List Nat) (n : Nat) : Search :=
  let index := narrow xs n 0 xs.length
  match xs[index]? with
  | none => .missing index
  | some m => if m = n then .found index else if m < n then .missing (index + 1) else .missing index

/-- The line of a position that was searched among the starts of lines. -/
def line : Search → Nat
  | found i => i
  | missing i => i - 1

end Search

/-- The start of every line, in bytes. -/
structure LineMap where
  starts : List Nat

namespace LineMap

/-- The positions right after the newlines of a text whose first byte is at `pos`. -/
def startsAfter : Nat → List Char → List Nat
  | _, [] => []
  | pos, c :: s =>
    if c = '\n' then (pos + 1) :: startsAfter (pos + 1) s else startsAfter (pos + c.utf8Size) s

/-- Where the lines of a text start. -/
def lineStarts (text : String) : List Nat := 0 :: startsAfter 0 text.toList

/-- The line map of a text. -/
def ofText (text : String) : LineMap := ⟨(lineStarts text).map (· % UInt32.size)⟩

/-- The number of lines. -/
def count (m : LineMap) : Nat := m.starts.length

/-- The line that holds a position, counted from 0; a position past the end is in the last line. -/
def lineOf (m : LineMap) (pos : Nat) : Nat := (Search.binary m.starts pos).line % UInt32.size

/-- The line with the given number, cut out of a text. It is empty if there is no such line, or if
its range does not fit the text. -/
def lineText (m : LineMap) (text : String) (line : Nat) : String :=
  match m.starts[line]? with
  | none => ""
  | some start =>
    -- If an offset has started over at 0, then there is no number before it: the range is empty then.
    let stop := match m.starts[line + 1]? with
      | some next => next - 1
      | none => (Text.bytes text.toList).length
    String.ofList (Text.dropEndWhile (· = '\r') ((Text.slice? start stop text.toList).getD []))

end LineMap

end Goward
