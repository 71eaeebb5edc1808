import Goward.Text.Basic

/-!
# Variables

Where the names of one function or class body live, in the order in which they were first seen.
-/

namespace Goward

/-- Where a name lives. -/
inductive VarKind
  /-- In a slot of the function, unbound at entry. -/
  | local
  /-- In a slot of the function that starts with the argument at this position. -/
  | param (index : Nat)
  /-- Among the names of the module. -/
  | global
  deriving DecidableEq

/-- What a slot holds at entry. -/
inductive SlotInit
  | unbound
  | argument (index : Nat)
  deriving DecidableEq

/-- The Go expression for what a slot holds at entry. -/
def SlotInit.text : SlotInit → String
  | unbound => "πg.UnboundLocal"
  | argument index => "πArgs[" ++ toString index ++ "]"

/-- What the slot of a name holds at entry; a global name has no slot. -/
def VarKind.init? : VarKind → Option SlotInit
  | .local => some .unbound
  | .param index => some (.argument index)
  | .global => none

/-- The Go variable for the slot of a name. The mark keeps it apart from other names and from
keywords. -/
def slotName (x : String) : String := "µ" ++ x

/-- A name and where it lives. -/
structure Variable where
  name : String
  kind : VarKind
  deriving DecidableEq

/-- Variables in the order in which their names were first seen. -/
structure VarMap where
  toList : List Variable := []
  deriving DecidableEq

namespace VarMap

/-- Where a name lives, if the map knows it. -/
def find? (m : VarMap) (x : String) : Option VarKind :=
  (m.toList.find? (·.name == x)).map (·.kind)

/-- Adds a name that the map does not know. -/
def add (m : VarMap) (x : String) (kind : VarKind) : VarMap := ⟨m.toList ++ [⟨x, kind⟩]⟩

/-- Records a name. One that the map knows keeps its place. -/
def put (m : VarMap) (x : String) (kind : VarKind) : VarMap :=
  match m.find? x with
  | some _ => ⟨m.toList.map fun v => if v.name = x then ⟨x, kind⟩ else v⟩
  | none => m.add x kind

/-- The global names, sorted. -/
def globals (m : VarMap) : List String :=
  Text.sortByKey id ((m.toList.filter (·.kind == .global)).map (·.name))

/-- The names that have a slot, each with what the slot holds at entry. -/
def slots (m : VarMap) : List (String × SlotInit) :=
  m.toList.filterMap fun v => v.kind.init?.map (v.name, ·)

end VarMap

end Goward
