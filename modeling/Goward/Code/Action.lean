import Goward.Code.Value
import Goward.Layout.Fragment
import Goward.Syntax

/-!
# Actions

What generated code does between jumps: calls of the support runtime that may fail, constructions
that cannot, and stores into the slots of local names. Two more actions stand for no code. They mark
where a scratch variable begins to be in use and where it ceases to be.
-/

namespace Goward.Code

open Goward.Layout (Fragment)

/-- Where names live that have no slot. -/
inductive Namespace
  /-- The names of the module. -/
  | globals
  /-- The names of the class whose body runs. -/
  | classBody
  deriving DecidableEq

/-- The Go variable of a namespace. -/
def Namespace.text : Namespace → String
  | globals => "πGlobals"
  | classBody => "πClass"

/-- A call of the support runtime. It may fail. -/
inductive Call
  | setItem (names : Namespace) (key : StringRef) (v : Value)
  | delVar (names : Namespace) (key : StringRef)
  /-- Fails unless the slot of the name is bound. -/
  | checkLocal (x : String)
  | resolveGlobal (key : StringRef)
  /-- Looks into the class, then into the slot of an enclosing function if there is one. -/
  | resolveClass (closure : Option String) (key : StringRef)
  | getAttr (obj : Value) (attr : StringRef)
  | setAttr (obj : Value) (attr : StringRef) (v : Value)
  | invoke (fn : Value) (args : List Value)
  | binary (op : BinOp) (left right : Value)
  | inplace (op : BinOp) (left right : Value)
  | isTrue (v : Value)
  | iter (v : Value)
  /-- Takes a value apart into the first `n` elements of an array. -/
  | tie (items : Temp) (n : Nat) (v : Value)
  /-- Loads a module and the packages above it. -/
  | importModule (name : String) (packages : List Package)
  | wrapNative (reflect package : Package) (member : String)
  /-- Records the name of the module in the namespace of a class. -/
  | setModule (names : Temp) (module : StringRef)
  | evalCode (code : Temp)
  | newClass (name : StringRef) (bases names : Temp)
  deriving DecidableEq

/-- The name of an operator in the support runtime. -/
def opName : BinOp → String
  | .add => "Add"
  | .sub => "Sub"
  | .mul => "Mul"

namespace Call

/-- The call of a function of the support runtime in the current frame. -/
def runtime (fn : String) (args : List String) : String :=
  "πg." ++ fn ++ "(πF" ++ String.join (args.map (", " ++ ·)) ++ ")"

/-- An object is called with positional arguments. -/
def onArgs (fn : String) (args : List String) : String :=
  fn ++ ".Call(πF, πg.Args\x7b" ++ commaList args ++ "\x7d, nil)"

/-- The target of the element of an array when a value is taken apart. -/
def tieTarget (items : Temp) (index : Nat) : String :=
  "\x7bTarget: &" ++ (Value.item items index).text ++ "\x7d"

/-- The Go expression. -/
def text : Call → String
  | setItem names key v =>
    names.text ++ ".SetItem(πF, " ++ (Value.str key).text ++ ", " ++ v.text ++ ")"
  | delVar names key => runtime "DelVar" [names.text, key.text]
  | checkLocal x => runtime "CheckLocal" [slotName x, Text.quote x]
  | resolveGlobal key => runtime "ResolveGlobal" [Namespace.globals.text, key.text]
  | resolveClass closure key =>
    runtime "ResolveClass"
      [Namespace.classBody.text, (closure.map slotName).getD "nil", Namespace.globals.text, key.text]
  | getAttr obj attr => runtime "GetAttr" [obj.text, attr.text, "nil"]
  | setAttr obj attr v => runtime "SetAttr" [obj.text, attr.text, v.text]
  | invoke fn args => onArgs fn.text (args.map Value.text)
  | binary op left right => runtime (opName op) [left.text, right.text]
  | inplace op left right => runtime ("I" ++ opName op) [left.text, right.text]
  | isTrue v => runtime "IsTrue" [v.text]
  | iter v => runtime "Iter" [v.text]
  | tie items n v =>
    runtime "Tie"
      ["πg.TieTarget\x7bChildren: []πg.TieTarget\x7b" ++
        commaList ((List.range n).map (tieTarget items)) ++ "\x7d\x7d", v.text]
  | importModule name packages =>
    runtime "ImportModule"
      [Text.quote name,
        "[]*πg.Code\x7b" ++ commaList (packages.map (·.goName ++ ".Code")) ++ "\x7d"]
  | wrapNative reflect package member =>
    runtime "WrapNative" [reflect.goName ++ ".ValueOf(" ++ package.goName ++ "." ++ member ++ ")"]
  | setModule names module =>
    names.name ++ ".SetItemString(πF, \"__module__\", " ++ (Value.str module).text ++ ")"
  | evalCode code => code.name ++ ".Eval(πF, πGlobals, nil, nil)"
  | newClass name bases names =>
    onArgs "πg.TypeType.ToObject()" [(Value.str name).text, bases.name, names.name ++ ".ToObject()"]

/-- The scratch variables that a call mentions. -/
def temps : Call → List Temp
  | setItem _ _ v => v.temps
  | getAttr obj _ => obj.temps
  | setAttr obj _ v => obj.temps ++ v.temps
  | invoke fn args => fn.temps ++ args.flatMap Value.temps
  | binary _ left right => left.temps ++ right.temps
  | inplace _ left right => left.temps ++ right.temps
  | isTrue v => v.temps
  | iter v => v.temps
  | tie items _ v => items :: v.temps
  | setModule names _ => [names]
  | evalCode code => [code]
  | newClass _ bases names => [bases, names]
  | delVar _ _ | checkLocal _ | resolveGlobal _ | resolveClass _ _ | importModule _ _
  | wrapNative _ _ _ => []

end Call

/-- A value that is made without a chance of failure. -/
inductive Construction
  | tuple (elts : List Value)
  | list (elts : List Value)
  /-- An array with room for `n` objects. -/
  | array (n : Nat)
  | dict
  /-- What a generator is sent when it resumes. -/
  | received
  deriving DecidableEq

namespace Construction

/-- The Go expression. -/
def text : Construction → String
  | tuple elts => "πg.NewTuple(" ++ valueList elts ++ ").ToObject()"
  | list elts => "πg.NewList(" ++ valueList elts ++ ").ToObject()"
  | array n => "make([]*πg.Object, " ++ toString n ++ ")"
  | dict => "πg.NewDict()"
  | received => "πSent"

/-- The scratch variables that a construction mentions. -/
def temps : Construction → List Temp
  | tuple elts => elts.flatMap Value.temps
  | list elts => elts.flatMap Value.temps
  | array _ | dict | received => []

end Construction

/-- One thing that generated code does. -/
inductive Action
  /-- A comment with a line of the source. -/
  | sourceLine (number : Nat) (line : String)
  /-- A scratch variable begins to be in use. -/
  | acquire (t : Temp)
  /-- A scratch variable ceases to be in use. -/
  | release (t : Temp)
  /-- Makes a call for its effect. -/
  | perform (c : Call)
  /-- Makes a call and stores its result. -/
  | store (dst : Temp) (c : Call)
  /-- Makes a call and drops its result. -/
  | discard (c : Call)
  | construct (dst : Temp) (k : Construction)
  | setSlot (x : String) (v : Value)
  /-- Unbinds the slot of a name. -/
  | clearSlot (x : String)
  deriving DecidableEq

namespace Action

/-- The fragment of code for an action. -/
def fragment? : Action → Option Fragment
  | sourceLine number line => some (.sourceLine number line)
  | acquire _ | release _ => none
  | perform c => some (.call c.text)
  | store dst c => some (.callInto dst.name c.text)
  | discard c => some (.callInto "_" c.text)
  | construct dst k => some (.raw (dst.name ++ " = " ++ k.text))
  | setSlot x v => some (.raw (slotName x ++ " = " ++ v.text))
  | clearSlot x => some (.raw (slotName x ++ " = " ++ SlotInit.unbound.text))

/-- The scratch variables that the code of an action mentions. -/
def temps : Action → List Temp
  | perform c => c.temps
  | store dst c => dst :: c.temps
  | discard c => c.temps
  | construct dst k => dst :: k.temps
  | setSlot _ v => v.temps
  | sourceLine _ _ | acquire _ | release _ | clearSlot _ => []

end Action

end Goward.Code
