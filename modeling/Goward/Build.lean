import Goward.Code.Step
import Goward.Scope.Tree

/-!
# Building code

A build is a computation on the scope tree that may fail and that puts down code as it goes. The code
of two builds in a row is the code of the first followed by the code of the second. A build that fails
leaves nothing behind, neither code nor a change of the tree.
-/

namespace Goward

open Goward.Code

/-- What a successful build leaves behind. -/
structure Built (α : Type) where
  value : α
  code : List Step
  tree : ScopeTree

/-- A computation that generates code. -/
def Build (α : Type) := ScopeTree → Except Error (Built α)

namespace Build

/-- Runs a build on a tree. -/
def run {α : Type} (b : Build α) (t : ScopeTree) : Except Error (Built α) := b t

/-- The build that does nothing. -/
protected def pure {α : Type} (a : α) : Build α := fun t => .ok ⟨a, [], t⟩

/-- One build after another. -/
protected def bind {α β : Type} (b : Build α) (f : α → Build β) : Build β := fun t =>
  match b t with
  | .error e => .error e
  | .ok first =>
    match f first.value first.tree with
    | .error e => .error e
    | .ok second => .ok ⟨second.value, first.code ++ second.code, second.tree⟩

instance : Monad Build where
  pure := Build.pure
  bind := Build.bind

/-- The tree as it is. -/
def tree : Build ScopeTree := fun t => .ok ⟨t, [], t⟩

/-- Changes the tree. -/
def onTree {α : Type} (f : ScopeTree → α × ScopeTree) : Build α := fun t =>
  .ok ⟨(f t).1, [], (f t).2⟩

/-- Changes the tree, if that is possible. -/
def updateTree (f : ScopeTree → Except Error ScopeTree) : Build Unit := fun t =>
  match f t with
  | .error e => .error e
  | .ok t => .ok ⟨(), [], t⟩

/-- The result of a computation that needs no tree. -/
def lift {α : Type} (x : Except Error α) : Build α := fun t =>
  match x with
  | .error e => .error e
  | .ok a => .ok ⟨a, [], t⟩

/-- Fails without a place. -/
def fail {α : Type} (c : Cause) : Build α := lift (.error { cause := c })

/-- Fails unless a condition holds. -/
def require (b : Bool) (c : Cause) : Build Unit := if b then pure () else fail c

/-- Puts down a step. -/
def emit (s : Step) : Build Unit := fun t => .ok ⟨(), [s], t⟩

/-- Puts down an action. -/
def act (a : Action) : Build Unit := emit (.action a)

/-- Runs a build and returns its code along with its value, without putting it down. -/
def collect {α : Type} (b : Build α) : Build (α × List Step) := fun t =>
  match b t with
  | .error e => .error e
  | .ok r => .ok ⟨(r.value, r.code), [], r.tree⟩

/-- Runs a build for its code. -/
def codeOf (b : Build Unit) : Build (List Step) := do
  return (← collect b).2

/-- Gives the errors of a build a place, if the span is one. -/
def locate {α : Type} (span : Span) (b : Build α) : Build α := fun t =>
  if span.isEmpty then b t else (b t).mapError (·.locate span)

/-- Takes a scratch variable of a scope into use. -/
def acquire (id : Nat) (type : String) : Build Temp := do
  let t ← onTree (·.alloc id type)
  act (.acquire t)
  return t

/-- Gives back a scratch variable of a scope. -/
def release (id : Nat) (t : Temp) : Build Unit := do
  updateTree (·.free id t)
  act (.release t)

/-- Gives back the scratch variable that a value is, if it is one. -/
def releaseValue (id : Nat) (v : Value) : Build Unit :=
  match v.temp? with
  | some t => release id t
  | none => pure ()

/-- Gives back the scratch variables among some values. -/
def releaseAll (id : Nat) : List Value → Build Unit
  | [] => pure ()
  | v :: rest => do
    releaseValue id v
    releaseAll id rest

/-- The reference to a string. -/
def intern (s : String) : Build StringRef := onTree (·.intern s)

end Build

end Goward
