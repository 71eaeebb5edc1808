import Goward.Lowering.Target

/-!
# Lowering of imports

Importing a module loads it and every package above it, and leaves one module object for each
component of its path. A path under a reserved name stands for a Go package, whose members are wrapped
as objects.
-/

namespace Goward

open Goward.Code

/-- The first component of the path of a Go package. -/
def nativeRoot : String := "__go__"

namespace Build

/-- Registers the package of every path that the given parts begin, after the parts before them. -/
def addPackages (before : List String) : List String → Build (List Package)
  | [] => return []
  | part :: rest => do
    let path := before ++ [part]
    let package ← onTree (·.addImport ("/".intercalate path))
    let packages ← addPackages path rest
    return package :: packages

/-- Loads a module. The result is an array of the module objects for the components of its path. -/
def loadModule (id : Nat) (path : ModulePath) : Build Temp := do
  require (!path.parts.isEmpty) (.unsupported "import of an empty module path")
  let packages ← addPackages [] path.parts
  callInto id arrayType (.importModule (path.join ".") packages)

/-- Imports a module: the name after `as` stands for the module itself, and without one its first
component stands for the outermost package. -/
def importModule (id : Nat) (a : Alias) : Build Unit := do
  let modules ← loadModule id a.path
  match a.asName, a.path.first? with
  | some x, _ => storeName id x (.item modules (a.path.parts.length - 1))
  | none, some x => storeName id x (.item modules 0)
  | none, none => fail (.unsupported "import of an empty module path")
  release id modules

/-- Fetches a member and stores it in a name. -/
def importMember (id : Nat) (x : String) (c : Call) : Build Unit := do
  let member ← callInto id Temp.objectType c
  storeName id x (.temp member)
  release id member

/-- Imports members of a module. A clause without a name is passed over. -/
def importMembers (id : Nat) (module : Value) : List Alias → Build Unit
  | [] => return ()
  | a :: rest => do
    match a.path.last? with
    | none => pure ()
    | some name => do
      let attr ← intern name
      importMember id (a.asName.getD name) (.getAttr module attr)
    importMembers id module rest

/-- Imports members of a Go package. A clause without a name is passed over. -/
def importNativeMembers (id : Nat) (reflect package : Package) : List Alias → Build Unit
  | [] => return ()
  | a :: rest => do
    match a.path.last? with
    | none => pure ()
    | some name => importMember id (a.asName.getD name) (.wrapNative reflect package name)
    importNativeMembers id reflect package rest

/-- Imports members of the Go package with the given path. -/
def importNative (id : Nat) (path : List String) (names : List Alias) : Build Unit := do
  require (!path.isEmpty) (.unsupported ("import from bare '" ++ nativeRoot ++ "'"))
  let package ← onTree (·.addNative ("/".intercalate path))
  let reflect ← onTree (·.addNative "reflect")
  importNativeMembers id reflect package names

/-- Imports members from a path. -/
def importFrom (id : Nat) (path : ModulePath) (names : List Alias) (level : Nat) : Build Unit := do
  require (level == 0) (.unsupported "relative import")
  if path.first? = some nativeRoot then importNative id path.parts.tail names
  else do
    let modules ← loadModule id path
    importMembers id (.item modules (path.parts.length - 1)) names
    release id modules

/-- Imports modules one after another. -/
def importModules (id : Nat) : List Alias → Build Unit
  | [] => return ()
  | a :: rest => do
    importModule id a
    importModules id rest

end Build

end Goward
