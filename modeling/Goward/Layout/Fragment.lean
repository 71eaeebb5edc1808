import Goward.Text.Basic

/-!
# Fragments

The pieces of code that are laid out as Go text: text as it stands, calls whose failure leaves the
enclosing function, and labels.
-/

namespace Goward.Layout

/-- A piece of code before it is laid out. -/
inductive Fragment
  /-- Text as it stands. -/
  | raw (text : String)
  /-- A call that may fail; a failure leaves the enclosing function. -/
  | call (call : String)
  /-- A call that may fail and otherwise stores its result. -/
  | callInto (result call : String)
  /-- A place to jump to. -/
  | label (id : Nat)
  deriving DecidableEq

namespace Fragment

/-- A call whose failure leaves the function: what it assigns, and the call. -/
def checked (targets call : String) : String :=
  "if " ++ targets ++ " = " ++ call ++ "; πE != nil \x7b\n\tcontinue\n\x7d"

/-- The text of a fragment without its indentation. -/
def text : Fragment → String
  | .raw s => s
  | .call c => checked "πE" c
  | .callInto result c => checked (result ++ ", πE") c
  | .label id => "Label" ++ toString id ++ ":"

/-- The level at which a fragment is written: labels stand one level to the left. -/
def level : Fragment → Nat → Nat
  | .label _, n => n - 1
  | _, n => n

/-- A comment with a line of the source and its number. -/
def sourceLine (number : Nat) (s : String) : Fragment :=
  raw ("// line " ++ toString number ++ ": " ++ String.ofList (Text.trim s.toList))

end Fragment

end Goward.Layout
