/-!
# Spans

A span is a range of bytes in a source text, given by where it starts and how long it is.
-/

namespace Goward

/-- A range of bytes. -/
structure Span where
  start : Nat
  length : Nat
  deriving DecidableEq

namespace Span

/-- The empty span at the start of the text, which locates nothing. -/
def nowhere : Span := ⟨0, 0⟩

/-- The empty span at a position. -/
def empty (pos : Nat) : Span := ⟨pos, 0⟩

/-- The span between two positions. -/
def between (start stop : Nat) : Span := ⟨start, stop - start⟩

/-- The position right after the span. -/
def stop (s : Span) : Nat := s.start + s.length

/-- Whether the span holds no byte. -/
def isEmpty (s : Span) : Bool := s.length == 0

/-- Whether a position lies in the span. -/
def contains (s : Span) (pos : Nat) : Bool := s.start ≤ pos && pos < s.stop

/-- The span as a half-open interval. -/
def interval (s : Span) : String := "[" ++ toString s.start ++ ", " ++ toString s.stop ++ ")"

/-- The span as its two ends. -/
def range (s : Span) : String := toString s.start ++ ".." ++ toString s.stop

end Span

end Goward
