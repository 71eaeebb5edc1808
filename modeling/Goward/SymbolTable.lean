/-!
# Symbol table

Numbers the texts that are entered into it, from 0 in the order of their first entry.
-/

namespace Goward

/-- The texts entered so far, each once, in the order of their numbers. -/
structure SymbolTable where
  texts : List String := []

namespace SymbolTable

/-- The number of a text, if it was entered. -/
def get? (t : SymbolTable) (s : String) : Option Nat := t.texts.findIdx? (· == s)

/-- The text with a number. -/
def text? (t : SymbolTable) (key : Nat) : Option String := t.texts[key]?

/-- How many texts were entered. -/
def size (t : SymbolTable) : Nat := t.texts.length

/-- Enters a text, unless it is there already, and returns its number. -/
def intern (t : SymbolTable) (s : String) : Nat × SymbolTable :=
  match t.get? s with
  | some key => (key, t)
  | none => (t.size, ⟨t.texts ++ [s]⟩)

end SymbolTable

end Goward
