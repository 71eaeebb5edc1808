import Goward.Labels
import Goward.Pool

/-!
# Resources

What one scope hands out while code is generated for it: scratch variables, labels and loops. Names
and numbers depend only on the order of the requests to this scope.
-/

namespace Goward

/-- The resources of a scope. -/
structure Resources where
  pool : Pool := {}
  labels : Labels := {}
  deriving DecidableEq

namespace Resources

/-- Hands out a scratch variable. -/
def alloc (r : Resources) (type : String) : Temp × Resources :=
  let taken := r.pool.alloc type
  (taken.1, { r with pool := taken.2 })

/-- Takes a scratch variable back. -/
def free (r : Resources) (t : Temp) : Except Error Resources :=
  (r.pool.free t).map fun pool => { r with pool }

/-- The next label, which may be a checkpoint. -/
def label (r : Resources) (isCheckpoint : Bool) : Nat × Resources :=
  let next := r.labels.take isCheckpoint
  (next.1, { r with labels := next.2 })

/-- Opens a loop. -/
def openLoop (r : Resources) : Loop × Resources :=
  let opened := r.labels.takeLoop
  (opened.1, { r with labels := opened.2 })

/-- Closes the innermost loop, if there is one, and returns it. -/
def closeLoop (r : Resources) : Option Loop × Resources :=
  (r.labels.innermost?, { r with labels := r.labels.closeLoop })

end Resources

end Goward
