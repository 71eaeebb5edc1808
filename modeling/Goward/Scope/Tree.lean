import Goward.Classification
import Goward.Registry
import Goward.Resources

/-!
# The scope tree

The scopes of a unit, each with its own resources, and the registry that they share. Scopes are
numbered in the order in which they are entered. The module is scope 0 and every other scope has a
parent with a smaller number, so a walk outward always ends at the module.
-/

namespace Goward

/-- What a scope is the body of. -/
inductive ScopeKind
  | module
  /-- A class, with the names that its body declares global. -/
  | classBody (globals : List String)
  | function (vars : FunctionVars)
  deriving DecidableEq

/-- A scope. -/
structure Scope where
  id : Nat
  parent : Option Nat
  /-- The module that the scope belongs to. -/
  module : Nat
  name : String
  kind : ScopeKind
  resources : Resources := {}
  deriving DecidableEq

namespace Scope

/-- Whether the scope is the body of a module. -/
def isModule (s : Scope) : Bool := s.kind == .module

/-- The classification of a function. -/
def function? (s : Scope) : Option FunctionVars :=
  match s.kind with
  | .function f => some f
  | _ => none

/-- Whether the scope is the body of a generator. -/
def isGenerator (s : Scope) : Bool := s.function?.any (·.isGenerator)

/-- Where a name lives according to the scope, if it is a function that knows the name. -/
def lookup? (s : Scope) (x : String) : Option VarKind := s.function?.bind (·.vars.find? x)

end Scope

/-- The scopes of a unit and what they share. -/
structure ScopeTree where
  scopes : List Scope
  registry : Registry
  deriving DecidableEq

namespace ScopeTree

/-- The number of the module. -/
def moduleId : Nat := 0

/-- A tree with the module only. -/
def ofOptions (o : Options) : ScopeTree where
  scopes := [{ id := moduleId, parent := none, module := moduleId, name := "<module>", kind := .module }]
  registry := .ofOptions o

/-- How many scopes there are. -/
def size (t : ScopeTree) : Nat := t.scopes.length

/-- The scope with a number. -/
def scope? (t : ScopeTree) (id : Nat) : Option Scope := t.scopes[id]?

/-- Enters a scope and returns its number. -/
def push (t : ScopeTree) (parent : Nat) (name : String) (kind : ScopeKind) : Nat × ScopeTree :=
  let module := ((t.scope? parent).map (·.module)).getD moduleId
  (t.size,
    { t with scopes := t.scopes ++ [{ id := t.size, parent := some parent, module, name, kind }] })

/-- Enters the body of a class. -/
def pushClass (t : ScopeTree) (parent : Nat) (name : String) (vars : VarMap) : Nat × ScopeTree :=
  t.push parent name (.classBody vars.globals)

/-- Enters the body of a function. -/
def pushFunction (t : ScopeTree) (parent : Nat) (name : String) (f : FunctionVars) :
    Nat × ScopeTree :=
  t.push parent name (.function f)

/-- A scope followed by the scopes around it, from the inside out. -/
def ancestors (t : ScopeTree) (id : Nat) : List Scope :=
  match t.scope? id with
  | none => []
  | some s =>
    match s.parent with
    | none => [s]
    | some p => if p < id then s :: ancestors t p else [s]
termination_by id

/-- The resources of a scope. -/
def resources (t : ScopeTree) (id : Nat) : Resources :=
  ((t.scope? id).map (·.resources)).getD {}

/-- The tree with other resources of one scope. -/
def setResources (t : ScopeTree) (id : Nat) (r : Resources) : ScopeTree :=
  { t with scopes := t.scopes.modify id fun s => { s with resources := r } }

/-- Changes the resources of one scope. -/
def onResources {α : Type} (t : ScopeTree) (id : Nat) (f : Resources → α × Resources) :
    α × ScopeTree :=
  let changed := f (t.resources id)
  (changed.1, t.setResources id changed.2)

/-- Takes a scratch variable from the pool of a scope. -/
def alloc (t : ScopeTree) (id : Nat) (type : String) : Temp × ScopeTree :=
  t.onResources id (·.alloc type)

/-- Gives a scratch variable back to the pool of a scope. -/
def free (t : ScopeTree) (id : Nat) (v : Temp) : Except Error ScopeTree :=
  ((t.resources id).free v).map (t.setResources id)

/-- The next label of a scope. -/
def label (t : ScopeTree) (id : Nat) (isCheckpoint : Bool) : Nat × ScopeTree :=
  t.onResources id (·.label isCheckpoint)

/-- Opens a loop in a scope. -/
def openLoop (t : ScopeTree) (id : Nat) : Loop × ScopeTree := t.onResources id (·.openLoop)

/-- Closes the innermost loop of a scope. -/
def closeLoop (t : ScopeTree) (id : Nat) : Option Loop × ScopeTree :=
  t.onResources id (·.closeLoop)

/-- Changes the registry. -/
def onRegistry {α : Type} (t : ScopeTree) (f : Registry → α × Registry) : α × ScopeTree :=
  let changed := f t.registry
  (changed.1, { t with registry := changed.2 })

/-- Registers a package below the library root. -/
def addImport (t : ScopeTree) (path : String) : Package × ScopeTree :=
  t.onRegistry (·.addImport path)

/-- Registers a package by its import path. -/
def addNative (t : ScopeTree) (path : String) : Package × ScopeTree :=
  t.onRegistry (·.addNative path)

/-- The reference to a string. -/
def intern (t : ScopeTree) (s : String) : StringRef × ScopeTree := t.onRegistry (·.intern s)

/-- Where a store or a delete of a name lands. -/
inductive Home
  | globals
  | classBody
  | slot
  deriving DecidableEq

/-- Where a store or a delete of a name in a scope lands. A function knows only the names that its
classification lists. -/
def home? (t : ScopeTree) (id : Nat) (x : String) : Option Home :=
  match t.scope? id with
  | none => some .globals
  | some s =>
    match s.kind with
    | .module => some .globals
    | .classBody globals => some (if globals.contains x then .globals else .classBody)
    | .function f =>
      match f.vars.find? x with
      | none => none
      | some .global => some .globals
      | some _ => some .slot

/-- Where the nearest function knows a name to live, from a scope outward. Classes are passed over,
and the first function that knows the name decides. -/
def enclosing? (t : ScopeTree) (id : Nat) (x : String) : Option VarKind :=
  ((t.ancestors id).takeWhile (!·.isModule)).findSome? (·.lookup? x)

/-- Whether a name lives in a slot, from a scope outward. -/
def inSlot (t : ScopeTree) (id : Nat) (x : String) : Bool :=
  (t.enclosing? id x).any (· != .global)

/-- How a name is read. -/
inductive Access
  | globals
  /-- From the class; `closure` tells whether an enclosing function has a slot for the name. -/
  | classBody (closure : Bool)
  | slot
  deriving DecidableEq

/-- How a name is read in a scope. -/
def access (t : ScopeTree) (id : Nat) (x : String) : Access :=
  match t.scope? id with
  | none => .globals
  | some s =>
    match s.kind with
    | .module => .globals
    | .classBody globals =>
      if globals.contains x then .globals else .classBody (s.parent.any (t.inSlot · x))
    | .function _ => if t.inSlot id x then .slot else .globals

end ScopeTree

end Goward
