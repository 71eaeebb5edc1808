/-!
# Texts as bytes, and quoted

The UTF-8 bytes of a text, cuts at byte offsets, which are possible only between two characters, and
texts as interpreted Go string literals. A literal writes the bytes one by one: printable ASCII stands
for itself apart from the quote and the backslash, tab, carriage return and newline have letters, and
any other byte is `\x` with two hexadecimal digits. So it is printable ASCII on one line, whatever the
text.
-/

namespace Goward.Text

/-- The bytes of a text in UTF-8. -/
def bytes (s : List Char) : List UInt8 := s.flatMap String.utf8EncodeChar

/-- Drops the first `n` bytes of a text, if they end between two characters. -/
def dropBytes? : Nat → List Char → Option (List Char)
  | 0, s => some s
  | _ + 1, [] => none
  | n + 1, c :: s => if c.utf8Size ≤ n + 1 then dropBytes? (n + 1 - c.utf8Size) s else none

/-- The first `n` bytes of a text, if they end between two characters. -/
def takeBytes? : Nat → List Char → Option (List Char)
  | 0, _ => some []
  | _ + 1, [] => none
  | n + 1, c :: s =>
    if c.utf8Size ≤ n + 1 then (takeBytes? (n + 1 - c.utf8Size) s).map (c :: ·) else none

/-- The bytes from `start` up to `stop`, if that is a range of the text between two characters. -/
def slice? (start stop : Nat) (s : List Char) : Option (List Char) :=
  if start ≤ stop then (dropBytes? start s).bind (takeBytes? (stop - start)) else none

/-- One byte inside a quoted text. -/
def quoteByte (b : UInt8) : List Char :=
  let n := b.toNat
  if n = 0x09 then ['\\', 't']
  else if n = 0x0d then ['\\', 'r']
  else if n = 0x0a then ['\\', 'n']
  else if n = 0x22 then ['\\', '"']
  else if n = 0x5c then ['\\', '\\']
  else if 0x20 ≤ n ∧ n ≤ 0x7e then [Char.ofNat n]
  else ['\\', 'x', Nat.digitChar (n / 16), Nat.digitChar (n % 16)]

/-- The quoted text, as characters. -/
def quoteChars (s : List Char) : List Char :=
  '"' :: (bytes s).flatMap quoteByte ++ ['"']

/-- The text as an interpreted Go string literal. -/
def quote (s : String) : String := String.ofList (quoteChars s.toList)

end Goward.Text
