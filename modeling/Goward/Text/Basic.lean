/-!
# Texts

White space, the lines of a text, the order of texts, and substitution. Characters are white space if
they have the Unicode property `White_Space`. A newline ends a line, and a carriage return directly
before it belongs to the line ending; a text that ends in a newline has no further, empty line after
it, and a carriage return at the very end of a text is part of its last line. Texts are ordered by
code point, character by character, a proper beginning first, which is also the order of their UTF-8
bytes.
-/

namespace Goward.Text

/-- Whether a character has the Unicode property `White_Space`. -/
def isBlank (c : Char) : Bool :=
  let n := c.toNat
  (0x09 ≤ n && n ≤ 0x0d) || n == 0x20 || n == 0x85 || n == 0xa0 || n == 0x1680
    || (0x2000 ≤ n && n ≤ 0x200a) || n == 0x2028 || n == 0x2029 || n == 0x202f || n == 0x205f
    || n == 0x3000

/-- Cuts the characters that satisfy `p` off the end. -/
def dropEndWhile (p : Char → Bool) (s : List Char) : List Char :=
  (s.reverse.dropWhile p).reverse

/-- Cuts white space off both ends. -/
def trim (s : List Char) : List Char :=
  dropEndWhile isBlank (s.dropWhile isBlank)

/-- Drops one carriage return from the end. -/
def chopReturn (l : List Char) : List Char :=
  if l.getLast? = some '\r' then l.dropLast else l

/-- The lines of a text, without their endings. -/
def lines (s : List Char) : List (List Char) :=
  let pieces := s.splitOn '\n'
  pieces.dropLast.map chopReturn ++ (pieces.drop (pieces.length - 1)).filter (· ≠ [])

/-- Whether the first list of characters comes strictly before the second one. -/
def charsPrecede : List Char → List Char → Bool
  | _, [] => false
  | [], _ :: _ => true
  | a :: s, b :: t => a.toNat < b.toNat || (a.toNat == b.toNat && charsPrecede s t)

/-- Whether the first text comes strictly before the second one. -/
def precedes (s t : String) : Bool := charsPrecede s.toList t.toList

/-- Puts an element before the first one whose key comes after its own, so that elements with equal
keys stay in the order of their arrival. -/
def insertByKey {α : Type} (key : α → String) (x : α) : List α → List α
  | [] => [x]
  | y :: rest => if precedes (key x) (key y) then x :: y :: rest else y :: insertByKey key x rest

/-- Sorts a list by key; elements with equal keys keep their order. -/
def sortByKey {α : Type} (key : α → String) (xs : List α) : List α :=
  xs.foldl (fun sorted x => insertByKey key x sorted) []

/-- Replaces the pattern `old` by `new`, from left to right, first passing over `skip` characters of
an occurrence that was already replaced. -/
def substituteFrom (old new : List Char) : Nat → List Char → List Char
  | _, [] => []
  | skip + 1, _ :: rest => substituteFrom old new skip rest
  | 0, c :: rest =>
    if old.isPrefixOf (c :: rest) then new ++ substituteFrom old new (old.length - 1) rest
    else c :: substituteFrom old new 0 rest

/-- Replaces every occurrence of the non-empty text `old` by `new`. -/
def substitute (old new text : String) : String :=
  String.ofList (substituteFrom old.toList new.toList 0 text.toList)

/-- Replaces every occurrence of one character by a text. -/
def substituteChar (old : Char) (new : String) (text : String) : String :=
  String.ofList (text.toList.flatMap fun c => if c = old then new.toList else [c])

end Goward.Text
