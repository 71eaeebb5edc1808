import Goward.Proofs.OneLine

/-!
# Brackets of Go text

Go text is read character by character. Interpreted string literals and line comments are passed
over; a newline inside of a literal is refused, and so are the other literals and comments of Go.
What is left of the text are its brackets. They are nested when a stack takes them: each that opens
is put on it, and each that closes takes its partner off.
-/

namespace Goward

/-- The kinds of brackets. -/
inductive BracketKind
  | round
  | square
  | curly
  deriving DecidableEq

/-- A bracket. -/
inductive Bracket
  | opening (kind : BracketKind)
  | closing (kind : BracketKind)
  deriving DecidableEq

/-- Brackets of which each one that opens is closed by its partner, in nested order. -/
inductive Nested : List Bracket → Prop
  | nil : Nested []
  | wrap (kind : BracketKind) {inner rest : List Bracket} : Nested inner → Nested rest →
    Nested (.opening kind :: inner ++ .closing kind :: rest)

/-- The open brackets, innermost first, after some more; none if one closes without its partner. -/
def Bracket.stack? : List Bracket → List BracketKind → Option (List BracketKind)
  | [], opened => some opened
  | .opening kind :: rest, opened => stack? rest (kind :: opened)
  | .closing _ :: _, [] => none
  | .closing kind :: rest, inner :: opened => if kind = inner then stack? rest opened else none

namespace Bracket

theorem stack?_append (a b : List Bracket) (p : List BracketKind) :
    stack? (a ++ b) p = (stack? a p).bind (stack? b) := by
  induction a generalizing p with
  | nil => rfl
  | cons x rest ih =>
    cases x with
    | opening kind => exact ih (kind :: p)
    | closing kind =>
      cases p with
      | nil => rfl
      | cons inner p =>
        rw [List.cons_append, stack?, stack?]
        split
        · exact ih p
        · rfl

/-- Brackets that close the open ones, each after a nested part. -/
inductive Closes : List BracketKind → List Bracket → Prop
  | done {bs : List Bracket} : Nested bs → Closes [] bs
  | close {kind : BracketKind} {p : List BracketKind} {inner rest : List Bracket} : Nested inner →
    Closes p rest → Closes (kind :: p) (inner ++ .closing kind :: rest)

/-- A pair of brackets in front of others that close what is open. -/
theorem Closes.wrap {kind : BracketKind} {p : List BracketKind} {inner rest : List Bracket}
    (hinner : Nested inner) (h : Closes p rest) :
    Closes p (.opening kind :: inner ++ .closing kind :: rest) := by
  cases h with
  | done hrest => exact .done (.wrap kind hinner hrest)
  | @close outer p next rest hnext hrest =>
    have hsplit : Bracket.opening kind :: inner ++ .closing kind :: (next ++ .closing outer :: rest)
        = (.opening kind :: inner ++ .closing kind :: next) ++ .closing outer :: rest := by simp
    rw [hsplit]
    exact .close (.wrap kind hinner hnext) hrest

theorem closes_of_stack {bs : List Bracket} {p : List BracketKind} (h : stack? bs p = some []) :
    Closes p bs := by
  induction bs generalizing p with
  | nil =>
    obtain rfl : p = [] := Option.some.inj h
    exact .done .nil
  | cons x rest ih =>
    cases x with
    | opening kind =>
      -- the part up to the partner is what the rest closes first
      generalize hp : kind :: p = opened at ih h
      have hrest := ih (p := opened) (hp ▸ h)
      cases hrest with
      | done _ => cases hp
      | close hinner hrest =>
        cases hp
        exact hrest.wrap hinner
    | closing kind =>
      cases p with
      | nil => cases h
      | cons inner p =>
        rw [stack?] at h
        split at h
        · next hkind =>
          subst hkind
          exact .close .nil (ih h)
        · cases h

end Bracket

theorem Nested.stack {bs : List Bracket} (h : Nested bs) (p : List BracketKind) :
    Bracket.stack? bs p = some p := by
  induction h generalizing p with
  | nil => rfl
  | wrap kind _ _ ihinner ihrest =>
    rw [Bracket.stack?_append, Bracket.stack?, ihinner (kind :: p), Option.bind_some,
      Bracket.stack?, if_pos rfl, ihrest p]

theorem nested_iff_stack (bs : List Bracket) : Nested bs ↔ Bracket.stack? bs [] = some [] := by
  refine ⟨fun h => h.stack [], fun h => ?_⟩
  cases Bracket.closes_of_stack h with
  | done hnested => exact hnested

instance : DecidablePred Nested := fun bs => decidable_of_iff _ (nested_iff_stack bs).symm

example : ¬Nested [.opening .round, .opening .curly, .closing .round, .closing .curly] := by decide

/-! ### Reading -/

namespace Text

/-- What a character of Go text stands in. -/
inductive Mode
  | code
  /-- Behind a slash. -/
  | slash
  | string
  /-- Behind a backslash in a string. -/
  | escape
  | comment
  deriving DecidableEq

namespace Mode

/-- What the next character stands in; none where the text is refused. -/
def next? : Mode → Char → Option Mode
  | code, c =>
    if c = '"' then some string
    else if c = '/' then some slash
    else if c = '\x27' ∨ c = '\x60' ∨ c = '\\' then none
    else some code
  | slash, c => if c = '/' then some comment else none
  | string, c =>
    if c = '"' then some code
    else if c = '\\' then some escape
    else if c = '\n' then none
    else some string
  | escape, c => if c = '\n' then none else some string
  | comment, c => if c = '\n' then some code else some comment

/-- Whether a text may end. -/
def isFinal : Mode → Bool
  | code | comment => true
  | slash | string | escape => false

end Mode

/-- The bracket that a character is. -/
def bracket? : Char → Option Bracket
  | '(' => some (.opening .round)
  | '[' => some (.opening .square)
  | '\x7b' => some (.opening .curly)
  | ')' => some (.closing .round)
  | ']' => some (.closing .square)
  | '\x7d' => some (.closing .curly)
  | _ => none

/-- The brackets that a character adds. -/
def Mode.brackets : Mode → Char → List Bracket
  | code, c => (bracket? c).toList
  | slash, _ | string, _ | escape, _ | comment, _ => []

/-- The brackets of a text that begins in a mode. -/
def bracketsFrom? : Mode → List Char → Option (List Bracket)
  | mode, [] => if mode.isFinal then some [] else none
  | mode, c :: rest => do
    let next ← mode.next? c
    let found ← bracketsFrom? next rest
    return mode.brackets c ++ found

/-- The brackets of a Go text, outside of string literals and comments. There are none if a literal
is not closed on its line, or if the text has literals or comments of another form. -/
def brackets? (s : String) : Option (List Bracket) := bracketsFrom? .code s.toList

example : brackets? "f(\")\\\"\") // (" = some [.opening .round, .closing .round] := by decide

/-- Where a text can be read, each of its lines can be read by itself: no literal goes on behind the
end of the line on which it is opened. -/
theorem lines_of_bracketsFrom {mode : Mode} {s first : List Char} {rest : List (List Char)}
    (h : (bracketsFrom? mode s).isSome) (hlines : s.splitOn '\n' = first :: rest) :
    (bracketsFrom? mode first).isSome ∧ ∀ line ∈ rest, (bracketsFrom? .code line).isSome := by
  induction s generalizing mode first rest with
  | nil =>
    rw [List.splitOn_nil] at hlines
    cases hlines
    exact ⟨h, List.forall_mem_nil _⟩
  | cons c s ih =>
    obtain ⟨bs, hbs⟩ := Option.isSome_iff_exists.mp h
    obtain ⟨next, hnext, hbs⟩ := Option.bind_eq_some_iff.mp hbs
    obtain ⟨found, hfound, -⟩ := Option.bind_eq_some_iff.mp hbs
    have hsome : (bracketsFrom? next s).isSome := by rw [hfound]; rfl
    obtain ⟨piece, pieces, hpieces⟩ := List.exists_cons_of_ne_nil (List.splitOn_ne_nil '\n' s)
    obtain ⟨hpiece, hothers⟩ := ih hsome hpieces
    rw [List.splitOn_cons_eq_if_modifyHead, hpieces] at hlines
    split at hlines
    · next hc =>
      -- a newline is read in code and at the end of a comment only, and leads to code
      obtain rfl : c = '\n' := beq_iff_eq.mp hc
      obtain ⟨rfl, rfl⟩ := List.cons_eq_cons.mp hlines
      cases mode with
      | code | comment =>
        cases hnext
        exact ⟨rfl, List.forall_mem_cons.mpr ⟨hpiece, hothers⟩⟩
      | slash | string | escape => cases hnext
    · obtain ⟨rfl, rfl⟩ := List.cons_eq_cons.mp hlines
      obtain ⟨inner, hinner⟩ := Option.isSome_iff_exists.mp hpiece
      exact ⟨by simp [bracketsFrom?, hnext, hinner], hothers⟩

example : brackets? "f(\"\n\")" = none := by decide

/-- A place in a text: what the next character stands in, and the open brackets. -/
structure Place where
  mode : Mode
  opened : List BracketKind

namespace Place

/-- The place behind a character. -/
def next? (s : Place) (c : Char) : Option Place := do
  let mode ← s.mode.next? c
  let opened ← Bracket.stack? (s.mode.brackets c) s.opened
  return ⟨mode, opened⟩

/-- The place behind some characters. -/
def run? : Place → List Char → Option Place
  | s, [] => some s
  | s, c :: rest => (s.next? c).bind (run? · rest)

variable {s t : Place} {a b l : List Char} {p q : List BracketKind}

theorem run?_append (s : Place) (a b : List Char) :
    s.run? (a ++ b) = (s.run? a).bind (·.run? b) := by
  induction a generalizing s with
  | nil => rfl
  | cons c rest ih =>
    rw [List.cons_append, run?, run?, Option.bind_assoc]
    exact Option.bind_congr fun t _ => ih t

/-- The brackets on the way from one place to another. -/
theorem brackets_of_run (h : s.run? l = some t) (ht : t.mode.isFinal = true) :
    ∃ bs, bracketsFrom? s.mode l = some bs ∧ Bracket.stack? bs s.opened = some t.opened := by
  induction l generalizing s with
  | nil =>
    obtain rfl : s = t := Option.some.inj h
    exact ⟨[], by simp [bracketsFrom?, ht], rfl⟩
  | cons c rest ih =>
    obtain ⟨u, hu, hrest⟩ := Option.bind_eq_some_iff.mp h
    obtain ⟨mode, hmode, hu⟩ := Option.bind_eq_some_iff.mp hu
    obtain ⟨opened, hopened, hu⟩ := Option.bind_eq_some_iff.mp hu
    obtain rfl : ⟨mode, opened⟩ = u := Option.some.inj hu
    obtain ⟨bs, hbs, hstack⟩ := ih hrest
    refine ⟨s.mode.brackets c ++ bs, ?_, ?_⟩
    · simp [bracketsFrom?, hmode, hbs]
    · rw [Bracket.stack?_append, hopened]
      exact hstack

end Place

/-- A text leads from some open brackets to others, and ends in code. -/
def Takes (s : String) (p q : List BracketKind) : Prop :=
  Place.run? ⟨.code, p⟩ s.toList = some ⟨.code, q⟩

/-- A text of which the brackets are nested, wherever it stands in code. -/
def Balanced (s : String) : Prop := ∀ p, Takes s p p

/-- Go text of which the brackets are nested, and every string literal is closed on its line. -/
structure Delimited (s : String) : Prop where
  nested : ∃ bs, brackets? s = some bs ∧ Nested bs
  /-- Every line can be read by itself. -/
  lines : ∀ line ∈ s.toList.splitOn '\n', (bracketsFrom? .code line).isSome

theorem Takes.delimited {s : String} (h : Takes s [] []) : Delimited s := by
  obtain ⟨bs, hbs, hstack⟩ := Place.brackets_of_run h rfl
  refine ⟨⟨bs, hbs, (nested_iff_stack bs).mpr hstack⟩, ?_⟩
  obtain ⟨first, rest, hlines⟩ := List.exists_cons_of_ne_nil (List.splitOn_ne_nil '\n' s.toList)
  have hread := lines_of_bracketsFrom (Option.isSome_iff_exists.mpr ⟨bs, hbs⟩) hlines
  exact hlines ▸ List.forall_mem_cons.mpr hread

end Text

end Goward
