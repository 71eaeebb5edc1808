import Goward.Lowering.Expr

/-!
# Lowering of targets

The code that stores a value into the target of an assignment or a loop: a name, an attribute, or a
tuple or list of targets, into which the value is taken apart element by element.
-/

namespace Goward

open Goward.Code

namespace Build

/-- The type of a scratch variable that holds an array of objects. -/
def arrayType : String := "[]*πg.Object"

/-- Takes a value apart into an array of `n` elements, which `store` then puts where they belong. -/
def unpack (id : Nat) (v : Value) (n : Nat) (store : Temp → Build Unit) : Build Unit := do
  let items ← acquire id arrayType
  act (.construct items (.array n))
  act (.perform (.tie items n v))
  store items
  release id items

end Build

open Build

mutual

/-- Stores a value into a target. -/
def storeInto (id : Nat) (v : Value) : Expr → Build Unit
  | .name x => storeName id x v
  | .attr obj name => do
    let o ← lowerExpr id obj
    let attr ← intern name
    act (.perform (.setAttr o attr v))
    releaseValue id o
  | .tuple elts => unpack id v elts.length fun items => storeItems id items 0 elts
  | .list elts => unpack id v elts.length fun items => storeItems id items 0 elts
  | _ => fail (.unsupported "assignment to this target")

/-- Stores the elements of an array, from the given index on, into targets. -/
def storeItems (id : Nat) (items : Temp) : Nat → List Expr → Build Unit
  | _, [] => return ()
  | index, e :: rest => do
    storeInto id (.item items index) e
    storeItems id items (index + 1) rest

end

/-- Stores one value into several targets, one after another. -/
def storeIntoAll (id : Nat) (v : Value) : List Expr → Build Unit
  | [] => return ()
  | e :: rest => do
    storeInto id v e
    storeIntoAll id v rest

/-- Deletes targets, which must be names. -/
def deleteAll (id : Nat) : List Expr → Build Unit
  | [] => return ()
  | .name x :: rest => do
    deleteName id x
    deleteAll id rest
  | _ :: _ => fail (.unsupported "deleting this target")

end Goward
