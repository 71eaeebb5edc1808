import Goward.Source.Span
import Goward.Text.Basic

/-!
# Diagnostics

A diagnostic reports an error of a unit: the file, the place if it is known, a message and the code
of the message. Messages come from a table of templates whose placeholders, a number in braces, are
replaced by the arguments in turn. Each argument is put in everywhere before the next one is looked
at, so an argument that itself holds a later placeholder is filled in as well.
-/

namespace Goward

/-- A message with placeholders, and its code, which never changes. -/
structure Template where
  code : Nat
  text : String
  deriving DecidableEq

namespace Template

/-- The placeholder of the argument with the given number. -/
def placeholder (i : Nat) : String := "\x7b" ++ toString i ++ "\x7d"

/-- Puts arguments into a text, starting with the placeholder numbered `i`. -/
def fillFrom : Nat → List String → String → String
  | _, [], text => text
  | i, arg :: args, text => fillFrom (i + 1) args (Text.substitute (placeholder i) arg text)

/-- Puts arguments into a text with placeholders. -/
def fill (text : String) (args : List String) : String := fillFrom 0 args text

def duplicateArgument : Template :=
  ⟨9001, "duplicate argument '\x7b0\x7d' in function definition"⟩

def parameterAndGlobal : Template := ⟨9002, "name '\x7b0\x7d' is parameter and global"⟩

def usedPriorToGlobal : Template :=
  ⟨9003, "name '\x7b0\x7d' is used prior to global declaration"⟩

def deleteNonexistentLocal : Template := ⟨9004, "cannot delete nonexistent local: \x7b0\x7d"⟩

def unclassifiedName : Template := ⟨9005, "name '\x7b0\x7d' was not classified in this scope"⟩

def tempNotInUse : Template := ⟨9010, "scratch variable '\x7b0\x7d' is not in use"⟩

def returnOutsideFunction : Template := ⟨9050, "'return' outside function"⟩

def loopControlOutsideLoop : Template := ⟨9051, "'\x7b0\x7d' not properly in loop"⟩

def unsupported : Template := ⟨9052, "\x7b0\x7d is not supported"⟩

/-- The table of messages. -/
def table : List Template :=
  [duplicateArgument, parameterAndGlobal, usedPriorToGlobal, deleteNonexistentLocal,
    unclassifiedName, tempNotInUse, returnOutsideFunction, loopControlOutsideLoop, unsupported]

/-- The message with the given code. -/
def ofCode? (code : Nat) : Option Template := table.find? (·.code == code)

end Template

/-- A report of an error. -/
structure Diagnostic where
  file : String
  span : Option Span
  text : String
  code : Nat
  deriving DecidableEq

namespace Diagnostic

/-- The report of a message with its arguments. -/
def ofTemplate (file : String) (span : Option Span) (t : Template) (args : List String) :
    Diagnostic :=
  ⟨file, span, Template.fill t.text args, t.code⟩

/-- The report on one line. -/
def render (d : Diagnostic) : String :=
  let place := match d.span with
    | some s => "(" ++ toString s.start ++ ")"
    | none => ""
  d.file ++ place ++ ": error GR" ++ toString d.code ++ ": " ++ d.text

end Diagnostic

end Goward
