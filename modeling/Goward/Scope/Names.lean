import Goward.Build

/-!
# Names in a scope

The code that stores, deletes and reads a name as seen from a scope. A name lives among the names of
the module, in the namespace of a class or in a slot of a function; the first two are addressed by a
string and may fail, and a slot must be bound before it is read or deleted.
-/

namespace Goward

open Goward.Code

namespace Build

/-- Calls the runtime and stores the result in a fresh scratch variable. -/
def callInto (id : Nat) (type : String) (c : Call) : Build Temp := do
  let t ← acquire id type
  act (.store t c)
  return t

/-- Stores a value in a name. -/
def storeName (id : Nat) (x : String) (v : Value) : Build Unit := do
  match (← tree).home? id x with
  | none => fail (.unclassifiedName x)
  | some .globals => act (.perform (.setItem .globals (← intern x) v))
  | some .classBody => act (.perform (.setItem .classBody (← intern x) v))
  | some .slot => act (.setSlot x v)

/-- Deletes a name. -/
def deleteName (id : Nat) (x : String) : Build Unit := do
  match (← tree).home? id x with
  | none => fail (.deleteNonexistentLocal x)
  | some .globals => act (.perform (.delVar .globals (← intern x)))
  | some .classBody => act (.perform (.delVar .classBody (← intern x)))
  | some .slot => do
    act (.perform (.checkLocal x))
    act (.clearSlot x)

/-- Reads a name. -/
def readName (id : Nat) (x : String) : Build Value := do
  match (← tree).access id x with
  | .globals => do
    let key ← intern x
    return .temp (← callInto id Temp.objectType (.resolveGlobal key))
  | .classBody closure => do
    let key ← intern x
    let outer := if closure then some x else none
    return .temp (← callInto id Temp.objectType (.resolveClass outer key))
  | .slot => do
    act (.perform (.checkLocal x))
    return .slot x

end Build

end Goward
