import Goward.Code.Linear
import Goward.Layout.Writer

/-!
# Layout of bodies

The Go text of linear code. A body is rendered by itself, with its labels at the margin, and then
written into the text around it line by line. Its scratch variables are declared outside the loop
that dispatches to its checkpoints; for a generator they and the slots are declared outside the
function that resumes it, so that they survive a suspension.
-/

namespace Goward.Layout

open Goward.Code

/-- The type of a Go function that runs a body, with the name of its second parameter. -/
def frameFunction (args : String) : String :=
  "func(πF *πg.Frame, " ++ args ++ " []*πg.Object) (*πg.Object, *πg.BaseException) \x7b"

/-- The jump to a label. -/
def jump (n : Nat) : String := "goto Label" ++ toString n

/-- Declares variables for what every body uses and for its scratch variables. -/
def declarations (temps : List Temp) : List Op :=
  [.raw "πGlobals := πF.Globals()", .raw "_ = πGlobals"] ++
    temps.flatMap fun t => [.raw t.declaration, .raw ("_ = " ++ t.name)]

/-- Runs the code of a body from the checkpoint where it was left. -/
def resumable (checkpoints : List Nat) (code : List Op) : List Op :=
  [.raw "var πE *πg.BaseException", .raw "_ = πE"] ++ Op.dispatch checkpoints (render 1 code) ++
    [.raw "return nil, πE"]

/-- Declares the slot of a name. -/
def slotDeclaration (x : String) (init : SlotInit) : List Op :=
  [.raw ("var " ++ slotName x ++ " *πg.Object = " ++ init.text), .raw ("_ = " ++ slotName x)]

/-- What a code object says about the parameters that are not positional. -/
def codeFlags (h : FunctionHeader) : String :=
  let flags := (if h.takesRest then ["πg.CodeFlagVarArg"] else []) ++
    (if h.takesKeywords then ["πg.CodeFlagKWArg"] else [])
  if flags.isEmpty then "0" else " | ".intercalate flags

/-- The first line of the code object of a function. -/
def functionOpening (filename : String) (h : FunctionHeader) : String :=
  let params := h.params.map fun p => "\x7bName: " ++ Text.quote p ++ "\x7d"
  "πg.NewCode(" ++ Text.quote h.name ++ ", " ++ Text.quote filename ++ ", []πg.Param\x7b" ++
    commaList params ++ "\x7d, " ++ codeFlags h ++ ", " ++ frameFunction "πArgs"

/-- The first line of a code object without parameters. -/
def codeOpening (filename name : String) : String :=
  "πg.NewCode(" ++ Text.quote name ++ ", " ++ Text.quote filename ++ ", nil, 0, " ++
    frameFunction "_"

/-- The body of a function object, around the code that runs it. -/
def functionBody (h : FunctionHeader) (temps : List Temp) (run : String) : List Op :=
  (h.slots.flatMap fun s => slotDeclaration s.1 s.2) ++ [.raw (render 0 (declarations temps))] ++
    if h.isGenerator then
      [.raw "return πg.NewGenerator(πF, func(πSent *πg.Object) (*πg.Object, *πg.BaseException) \x7b",
        .within 1 [.raw run], .raw "\x7d).ToObject(), nil"]
    else [.raw run]

mutual

/-- The operations that write an instruction. -/
def instrOps (filename : String) : Instr → List Op
  | .action a => a.fragment?.toList.map .put
  | .label n => [.put (.label n)]
  | .goto n => [.raw (jump n)]
  | .gotoUnless cond n => [.raw ("if !" ++ cond.name ++ " \x7b\n\t" ++ jump n ++ "\n\x7d")]
  | .next item iterator exhausted =>
    [.raw ("if " ++ item.name ++ ", πE = πg.Next(πF, " ++ iterator.name ++ "); πE != nil \x7b\n" ++
      "\tif πE.Type() != πg.StopIterationType \x7b\n\t\tcontinue\n\t\x7d\n\tπE = nil\n" ++
      "\tπF.RestoreExc(nil, nil)\n\t" ++ jump exhausted ++ "\n\x7d")]
  | .pushCheckpoint n => [.raw ("πF.PushCheckpoint(" ++ toString n ++ ")")]
  | .ret none => [.raw "return nil, nil"]
  | .ret (some v) => [.raw ("return " ++ v.text ++ ", nil")]
  | .function dst header temps checkpoints body =>
    let run := render 0 (resumable checkpoints (codeOps filename body))
    [.raw (dst.name ++ " = πg.NewFunction(" ++ functionOpening filename header),
      .within 1 (functionBody header temps run), .raw "\x7d), πGlobals).ToObject()"]
  | .classBody dst name names temps checkpoints body =>
    let run := render 0 (resumable checkpoints (codeOps filename body))
    [.raw (dst.name ++ " = " ++ codeOpening filename name),
      .within 1 [.raw ("πClass := " ++ names.name), .raw "_ = πClass",
        .raw (render 0 (declarations temps)), .raw run],
      .raw "\x7d)"]

/-- The operations that write linear code. -/
def codeOps (filename : String) : List Instr → List Op
  | [] => []
  | i :: rest => instrOps filename i ++ codeOps filename rest

end

end Goward.Layout
