import Goward.Json.Numbers

/-!
# JSON values

Three things are done with a value: a string is read, a value of any other kind in its place is
refused, and a value that nobody asks for is passed over. A refusal says what is wrong with the value
itself, as far as it has to be looked at to tell its kind.
-/

namespace Goward.Json

/-- Gets past the rest of a literal such as `null`. -/
def skipLiteral : List Char → List Char → Except Failure (List Char)
  | [], s => .ok s
  | _ :: _, [] => .error .cutShort
  | a :: expected, b :: s => if a = b then skipLiteral expected s else .error .malformed

/-- The rest of the literal that begins with the given letter. -/
def literalRest? (c : Char) : Option (List Char) :=
  if c = 'n' then some ['u', 'l', 'l']
  else if c = 't' then some ['r', 'u', 'e']
  else if c = 'f' then some ['a', 'l', 's', 'e']
  else none

/-- A value that was read through is refused for its kind. -/
def refuseAfter {α : Type} : Except Failure α → Failure
  | .ok _ => .mistyped
  | .error e => e

/-- How a value of the wrong kind is refused. -/
def refuse : List Char → Failure
  | [] => .cutShort
  | c :: s =>
    match literalRest? c with
    | some expected => refuseAfter (skipLiteral expected s)
    | none =>
      if c = '-' then refuseNumber s
      else if c.isDigit then refuseNumber (c :: s)
      else if c = '"' then refuseAfter (readStringRest true s)
      else if c = '[' ∨ c = '\x7b' then .mistyped
      else .malformed

/-- Reads a string. -/
def readString (s : List Char) : Except Failure (Reading (List Char)) :=
  match skipBlanks s with
  | '"' :: s => readStringRest true s
  | s => .error (refuse s)

/-- Gets past a string behind its opening quote. -/
def skipStringRest (s : List Char) : Except Failure (List Char) :=
  (readStringRest false s).map (·.2)

/-- Gets past a colon. -/
def skipColon (s : List Char) : Except Failure (List Char) :=
  match skipBlanks s with
  | ':' :: s => .ok s
  | [] => .error .cutShort
  | _ => .error .malformed

/-- Gets past a value that is neither an array nor an object and begins with `c`. -/
def skipScalar (c : Char) (s : List Char) : Except Failure (List Char) :=
  match literalRest? c with
  | some expected => skipLiteral expected s
  | none =>
    if c = '-' then skipNumber s
    else if c.isDigit then skipNumber (c :: s)
    else if c = '"' then skipStringRest s
    else .error .malformed

mutual

/-- Gets past a value in a given number of steps. -/
def skipValueIn : Nat → List Char → Except Failure (List Char)
  | 0, _ => .error .malformed
  | steps + 1, s =>
    match skipBlanks s with
    | [] => .error .cutShort
    | '[' :: s =>
      match skipBlanks s with
      | ']' :: s => .ok s
      | [] => .error .cutShort
      | s => skipElementsIn steps s
    | '\x7b' :: s =>
      match skipBlanks s with
      | '\x7d' :: s => .ok s
      | s => skipMembersIn steps s
    | c :: s => skipScalar c s

/-- Gets past the elements of an array and its end. -/
def skipElementsIn : Nat → List Char → Except Failure (List Char)
  | 0, _ => .error .malformed
  | steps + 1, s => do
    let s ← skipValueIn steps s
    match skipBlanks s with
    | ']' :: s => .ok s
    | ',' :: s => skipElementsIn steps s
    | [] => .error .cutShort
    | _ => .error .malformed

/-- Gets past the members of an object and its end. -/
def skipMembersIn : Nat → List Char → Except Failure (List Char)
  | 0, _ => .error .malformed
  | steps + 1, s =>
    match skipBlanks s with
    | '"' :: s => do
      let s ← skipStringRest s
      let s ← skipColon s
      let s ← skipValueIn steps s
      match skipBlanks s with
      | '\x7d' :: s => .ok s
      | ',' :: s => skipMembersIn steps s
      | [] => .error .cutShort
      | _ => .error .malformed
    | [] => .error .cutShort
    | _ => .error .malformed

end

/-- Gets past a value. Every two steps consume a character, so the steps always suffice. -/
def skipValue (s : List Char) : Except Failure (List Char) := skipValueIn (2 * s.length + 2) s

end Goward.Json
