import Goward.Text.Quoted

/-!
# JSON strings

A string is written between quotes. The quote, the backslash and the control characters are escaped,
and every other character stands for itself. Reading goes from left to right and stops at the first
fault. A string is read either for its characters or only to get past it. In the second case the
escapes of surrogates need not come in pairs, because they stand for no character that anybody asks
for.
-/

namespace Goward.Json

/-- Why a document is refused. -/
inductive Failure
  /-- The text is not JSON. -/
  | malformed
  /-- The text is fine so far, but it does not have the expected content. -/
  | mistyped
  /-- The text ends too early. -/
  | cutShort
  deriving DecidableEq

/-- What was read, and the text behind it. -/
abbrev Reading (α : Type) := α × List Char

/-- Skips white space. -/
def skipBlanks (s : List Char) : List Char :=
  s.dropWhile fun c => c == ' ' || c == '\t' || c == '\n' || c == '\r'

/-- The value of a hexadecimal digit. -/
def hexDigit? (c : Char) : Option Nat :=
  let n := c.toNat
  if 0x30 ≤ n ∧ n ≤ 0x39 then some (n - 0x30)
  else if 0x41 ≤ n ∧ n ≤ 0x46 then some (n - 0x41 + 10)
  else if 0x61 ≤ n ∧ n ≤ 0x66 then some (n - 0x61 + 10)
  else none

/-- The value of four hexadecimal digits. -/
def hex4? (a b c d : Char) : Option Nat := do
  return (((← hexDigit? a) * 16 + (← hexDigit? b)) * 16 + (← hexDigit? c)) * 16 + (← hexDigit? d)

/-- Reads four hexadecimal digits. The text is too short if it has fewer than four bytes. -/
def readHex4 (s : List Char) : Except Failure (Reading Nat) :=
  if (Text.bytes (s.take 4)).length < 4 then .error .cutShort
  else match s with
    | a :: b :: c :: d :: rest =>
      match hex4? a b c d with
      | some n => .ok (n, rest)
      | none => .error .malformed
    | _ => .error .malformed

/-- Whether a number is the first half of a surrogate pair. -/
def isLead (n : Nat) : Bool := 0xd800 ≤ n && n ≤ 0xdbff

/-- Whether a number is the second half of a surrogate pair. -/
def isTrail (n : Nat) : Bool := 0xdc00 ≤ n && n ≤ 0xdfff

/-- The character of a surrogate pair. -/
def ofSurrogates (lead trail : Nat) : Char :=
  Char.ofNat (0x10000 + (lead - 0xd800) * 0x400 + (trail - 0xdc00))

/-- Reads the second half of a surrogate pair, which must follow in an escape of its own. -/
def readTrail (lead : Nat) : List Char → Except Failure (Reading (List Char))
  | '\\' :: 'u' :: s => do
    let (trail, rest) ← readHex4 s
    if isTrail trail then .ok ([ofSurrogates lead trail], rest) else .error .malformed
  | [] | ['\\'] => .error .cutShort
  | _ => .error .malformed

/-- Reads an escape by number, behind its `u`. -/
def readUnicode (strict : Bool) (s : List Char) : Except Failure (Reading (List Char)) := do
  let (n, rest) ← readHex4 s
  if !strict then .ok ([], rest)
  else if isTrail n then .error .malformed
  else if isLead n then readTrail n rest
  else .ok ([Char.ofNat n], rest)

/-- The character of an escape by letter. -/
def letterEscape? (c : Char) : Option Char :=
  if c = '"' ∨ c = '\\' ∨ c = '/' then some c
  else if c = 'b' then some '\x08'
  else if c = 'f' then some '\x0c'
  else if c = 'n' then some '\n'
  else if c = 'r' then some '\r'
  else if c = 't' then some '\t'
  else none

/-- Reads an escape, behind its backslash. -/
def readEscape (strict : Bool) : List Char → Except Failure (Reading (List Char))
  | [] => .error .cutShort
  | c :: s =>
    if c = 'u' then readUnicode strict s
    else match letterEscape? c with
      | some x => .ok ([x], s)
      | none => .error .malformed

/-- Reads what begins with the character `c` inside a string. -/
def readElement (strict : Bool) (c : Char) (s : List Char) : Except Failure (Reading (List Char)) :=
  if c = '\\' then readEscape strict s
  else if c.toNat < 0x20 then .error .malformed
  else .ok ([c], s)

theorem readHex4_length {s rest : List Char} {n : Nat} (h : readHex4 s = .ok (n, rest)) :
    rest.length ≤ s.length := by
  unfold readHex4 at h
  split at h
  · cases h
  · split at h
    · split at h
      · cases h
        simp only [List.length_cons]
        omega
      · cases h
    · cases h

theorem readTrail_length {lead : Nat} {s rest cs : List Char}
    (h : readTrail lead s = .ok (cs, rest)) : rest.length ≤ s.length := by
  unfold readTrail at h
  split at h
  · rename_i s
    cases digits : readHex4 s with
    | error e => simp [digits, bind, Except.bind] at h
    | ok p =>
      have shorter : p.2.length ≤ s.length := readHex4_length digits
      simp only [digits, bind, Except.bind] at h
      split at h
      · cases h
        simp only [List.length_cons]
        omega
      · cases h
  all_goals cases h

theorem readUnicode_length {strict : Bool} {s rest cs : List Char}
    (h : readUnicode strict s = .ok (cs, rest)) : rest.length ≤ s.length := by
  unfold readUnicode at h
  cases digits : readHex4 s with
  | error e => simp [digits, bind, Except.bind] at h
  | ok p =>
    have shorter : p.2.length ≤ s.length := readHex4_length digits
    simp only [digits, bind, Except.bind] at h
    split at h
    · cases h
      exact shorter
    · split at h
      · cases h
      · split at h
        · exact Nat.le_trans (readTrail_length h) shorter
        · cases h
          exact shorter

/-- An element of a string is read from the text behind its first character. -/
theorem readElement_length {strict : Bool} {c : Char} {s rest cs : List Char}
    (h : readElement strict c s = .ok (cs, rest)) : rest.length ≤ s.length := by
  unfold readElement at h
  split at h
  · unfold readEscape at h
    split at h
    · cases h
    · split at h
      · exact Nat.le_succ_of_le (readUnicode_length h)
      · split at h
        · cases h
          simp
        · cases h
  · split at h
    · cases h
    · cases h
      exact Nat.le_refl _

/-- Reads a string behind its opening quote. -/
def readStringRest (strict : Bool) : List Char → Except Failure (Reading (List Char))
  | [] => .error .cutShort
  | c :: s =>
    if c = '"' then .ok ([], s)
    else match h : readElement strict c s with
      | .error e => .error e
      | .ok (cs, rest) =>
        have : rest.length < s.length + 1 := Nat.lt_succ_of_le (readElement_length h)
        match readStringRest strict rest with
        | .error e => .error e
        | .ok (more, behind) => .ok (cs ++ more, behind)
termination_by s => s.length

/-- One character inside a JSON string. -/
def escape (c : Char) : List Char :=
  if c = '"' then ['\\', '"']
  else if c = '\\' then ['\\', '\\']
  else if c = '\x08' then ['\\', 'b']
  else if c = '\x0c' then ['\\', 'f']
  else if c = '\n' then ['\\', 'n']
  else if c = '\r' then ['\\', 'r']
  else if c = '\t' then ['\\', 't']
  else if c.toNat < 0x20 then
    ['\\', 'u', '0', '0', Nat.digitChar (c.toNat / 16), Nat.digitChar (c.toNat % 16)]
  else [c]

/-- A JSON string that stands for the given characters. -/
def quoted (s : List Char) : List Char := '"' :: s.flatMap escape ++ ['"']

end Goward.Json
