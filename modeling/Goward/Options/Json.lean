import Goward.Json.Values
import Goward.Options

/-!
# Options as JSON

Options are written as an object with all four fields, and read from an object or an array. In an
object the fields may come in any order; a missing one has its default value, and members with other
keys are passed over. In an array the fields come in their order and the last ones may be missing.
-/

namespace Goward.Options

open Goward.Json

/-- The fields of the options. -/
inductive Field
  | fullPackageName
  | runtime
  | libroot
  | filename
  deriving DecidableEq

namespace Field

/-- The fields in the order in which they are written. -/
def all : List Field := [.fullPackageName, .runtime, .libroot, .filename]

/-- The key of a field. -/
def key : Field → String
  | fullPackageName => "fullPackageName"
  | runtime => "runtime"
  | libroot => "libroot"
  | filename => "filename"

/-- The field with a key. -/
def ofKey? (s : String) : Option Field := all.find? (·.key == s)

end Field

/-- The value of a field. -/
def get (o : Options) : Field → String
  | .fullPackageName => o.fullPackageName
  | .runtime => o.runtime
  | .libroot => o.libroot
  | .filename => o.filename

/-- The fields that a document gives. -/
abbrev Given := List (Field × String)

/-- What a document gives for a field. -/
def Given.find? (given : Given) (f : Field) : Option String := given.lookup f

/-- The options with the given fields and the default values of the others. -/
def ofGiven (given : Given) : Options :=
  let value (f : Field) : String := (given.find? f).getD (Options.get {} f)
  ⟨value .fullPackageName, value .runtime, value .libroot, value .filename⟩

/-- The member of an object for a field. -/
def member (o : Options) (f : Field) : List Char :=
  quoted f.key.toList ++ ':' :: quoted (o.get f).toList

/-- The options as a JSON object without white space. -/
def toJson (o : Options) : String :=
  String.ofList ('\x7b' :: [','].intercalate (Field.all.map o.member) ++ ['\x7d'])

/-- Reads a member behind the opening quote of its key. -/
def readMember (given : Given) (s : List Char) : Except Failure (Reading Given) := do
  let (key, s) ← readStringRest true s
  match Field.ofKey? (String.ofList key) with
  | some f =>
    if (given.find? f).isSome then .error .mistyped
    else do
      let s ← skipColon s
      let (value, s) ← readString s
      .ok (given ++ [(f, String.ofList value)], s)
  | none => do
    let s ← skipColon s
    let s ← skipValue s
    .ok (given, s)

/-- Reads the members of an object, at most as many as `count`, and its end. The text starts behind
the opening quote of a key. -/
def readMembers : Nat → Given → List Char → Except Failure (Reading Given)
  | 0, _, _ => .error .malformed
  | count + 1, given, s => do
    let (given, s) ← readMember given s
    match skipBlanks s with
    | '\x7d' :: s => .ok (given, s)
    | ',' :: s =>
      match skipBlanks s with
      | '"' :: s => readMembers count given s
      | [] => .error .cutShort
      | _ => .error .malformed
    | [] => .error .cutShort
    | _ => .error .malformed

/-- Reads an object behind its opening brace. A member has at least one character, so their number
is bounded by the length of the text. -/
def readObject (s : List Char) : Except Failure (Reading Given) :=
  match skipBlanks s with
  | '\x7d' :: s => .ok ([], s)
  | '"' :: s => readMembers (s.length + 1) [] s
  | [] => .error .cutShort
  | _ => .error .malformed

/-- Reads elements of an array as the given fields, and its end. -/
def readElements : List Field → Given → List Char → Except Failure (Reading Given)
  | [], _, _ => .error .malformed
  | f :: fields, given, s => do
    let (value, s) ← readString s
    let given := given ++ [(f, String.ofList value)]
    match skipBlanks s with
    | ']' :: s => .ok (given, s)
    | ',' :: s =>
      if fields.isEmpty then .error .malformed
      else match skipBlanks s with
        | [] => .error .cutShort
        | ']' :: _ => .error .malformed
        | s => readElements fields given s
    | [] => .error .cutShort
    | _ => .error .malformed

/-- Reads an array behind its opening bracket. -/
def readArray (s : List Char) : Except Failure (Reading Given) :=
  match skipBlanks s with
  | ']' :: s => .ok ([], s)
  | [] => .error .cutShort
  | s => readElements Field.all [] s

/-- Reads options from a JSON document. -/
def ofJson? (document : String) : Except Failure Options := do
  let (given, s) ← match skipBlanks document.toList with
    | '\x7b' :: s => readObject s
    | '[' :: s => readArray s
    | s => .error (refuse s)
  if (skipBlanks s).isEmpty then .ok (ofGiven given) else .error .malformed

end Goward.Options
