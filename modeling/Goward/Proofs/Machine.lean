import Mathlib.Logic.Function.Basic
import Goward.Code.Step

/-!
# Straight-line code as a program

The meaning of code without control structure, as a program over scratch variables and slots. What
it asks of the support runtime is recorded with the operands, and every request is answered; nothing
is assumed about the answers, which may depend on everything that was asked before.
-/

namespace Goward

/-- The content of a string. -/
def StringRef.string : StringRef → String
  | shared s => s
  | fresh s => s

namespace Code

variable {V : Type}

/-- What code asks of the support runtime, with the operands. -/
inductive Request (V : Type)
  | setItem (names : Namespace) (key : String) (v : V)
  | delVar (names : Namespace) (key : String)
  | checkLocal (x : String) (v : V)
  | resolveGlobal (key : String)
  /-- With the content of the slot of an enclosing function, if there is one. -/
  | resolveClass (closure : Option V) (key : String)
  | getAttr (obj : V) (attr : String)
  | setAttr (obj : V) (attr : String) (v : V)
  | invoke (fn : V) (args : List V)
  | binary (op : BinOp) (left right : V)
  | inplace (op : BinOp) (left right : V)
  | isTrue (v : V)
  | iter (v : V)
  | tie (n : Nat) (v : V)
  | importModule (name : String) (packages : List Package)
  | wrapNative (reflect package : Package) (member : String)
  | setModule (names : V) (module : String)
  | evalCode (code : V)
  | newClass (name : String) (bases names : V)
  | tuple (elts : List V)
  | list (elts : List V)
  | dict
  /-- The generator is suspended with a value; the answer is what it is sent. -/
  | suspend (v : V)

/-- What a scratch variable holds: an object, or an array of objects. -/
structure Content (V : Type) where
  object : V
  element : Nat → V

/-- The support runtime: the constants, and the answer to the last one of some requests. -/
structure Runtime (V : Type) where
  str : String → V
  int : Int → V
  none : V
  /-- What a slot holds that is not bound. -/
  unbound : V
  /-- What a new array holds. -/
  blank : V
  verbatim : String → V
  answer : List (Request V) → Content V

/-- A state of straight-line code. Scratch variables go by their names. -/
structure State (V : Type) where
  temps : String → Content V
  slots : String → V
  /-- What the generator was sent last. -/
  sent : V
  /-- The requests so far. -/
  trace : List (Request V)

namespace State

/-- Makes a request. -/
def ask (σ : State V) (q : Request V) : State V := { σ with trace := σ.trace ++ [q] }

/-- Stores into a scratch variable. -/
def setTemp (σ : State V) (t : Temp) (c : Content V) : State V :=
  { σ with temps := Function.update σ.temps t.name c }

/-- Stores into a slot. -/
def setSlot (σ : State V) (x : String) (v : V) : State V :=
  { σ with slots := Function.update σ.slots x v }

/-- Makes a request and stores the answer. -/
def askInto (R : Runtime V) (σ : State V) (t : Temp) (q : Request V) : State V :=
  (σ.ask q).setTemp t (R.answer (σ.trace ++ [q]))

end State

/-- A runtime that answers every request with its number. -/
def Runtime.counting : Runtime Nat where
  str _ := 0
  int n := n.toNat
  none := 0
  unbound := 0
  blank := 0
  verbatim _ := 0
  answer trace := ⟨trace.length, fun index => trace.length + index⟩

/-- The state before every request, where all variables hold zero. -/
def State.initial : State Nat where
  temps _ := ⟨0, fun _ => 0⟩
  slots _ := 0
  sent := 0
  trace := []

/-- What a value denotes. -/
def Value.denote (R : Runtime V) (σ : State V) : Value → V
  | temp t => (σ.temps t.name).object
  | slot x => σ.slots x
  | str s => R.str s.string
  | int n => R.int n
  | noneObject => R.none
  | item t index => (σ.temps t.name).element index
  | verbatim s => R.verbatim s

/-- The request that a call makes. -/
def Call.request (R : Runtime V) (σ : State V) : Call → Request V
  | setItem names key v => .setItem names key.string (v.denote R σ)
  | delVar names key => .delVar names key.string
  | checkLocal x => .checkLocal x (σ.slots x)
  | resolveGlobal key => .resolveGlobal key.string
  | resolveClass closure key => .resolveClass (closure.map σ.slots) key.string
  | getAttr obj attr => .getAttr (obj.denote R σ) attr.string
  | setAttr obj attr v => .setAttr (obj.denote R σ) attr.string (v.denote R σ)
  | invoke fn args => .invoke (fn.denote R σ) (args.map (·.denote R σ))
  | binary op left right => .binary op (left.denote R σ) (right.denote R σ)
  | inplace op left right => .inplace op (left.denote R σ) (right.denote R σ)
  | isTrue v => .isTrue (v.denote R σ)
  | iter v => .iter (v.denote R σ)
  | tie _ n v => .tie n (v.denote R σ)
  | importModule name packages => .importModule name packages
  | wrapNative reflect package member => .wrapNative reflect package member
  | setModule names module => .setModule (σ.temps names.name).object module.string
  | evalCode code => .evalCode (σ.temps code.name).object
  | newClass name bases names =>
    .newClass name.string (σ.temps bases.name).object (σ.temps names.name).object

/-- What an array holds after its first elements were replaced. -/
def Content.refill (c : Content V) (n : Nat) (answer : Content V) : Content V where
  object := c.object
  element i := if i < n then answer.element i else c.element i

/-- What an action does. -/
def Action.run (R : Runtime V) (σ : State V) : Action → State V
  | sourceLine _ _ | acquire _ | release _ => σ
  | perform (.tie items n v) =>
    let q := Request.tie n (v.denote R σ)
    (σ.ask q).setTemp items ((σ.temps items.name).refill n (R.answer (σ.trace ++ [q])))
  | perform c => σ.ask (c.request R σ)
  | discard c => σ.ask (c.request R σ)
  | store dst c => σ.askInto R dst (c.request R σ)
  | construct dst (.tuple elts) => σ.askInto R dst (.tuple (elts.map (·.denote R σ)))
  | construct dst (.list elts) => σ.askInto R dst (.list (elts.map (·.denote R σ)))
  | construct dst (.array _) => σ.setTemp dst ⟨R.blank, fun _ => R.blank⟩
  | construct dst .dict => σ.askInto R dst .dict
  | construct dst .received => σ.setTemp dst ⟨σ.sent, fun _ => R.blank⟩
  | setSlot x v => σ.setSlot x (v.denote R σ)
  | clearSlot x => σ.setSlot x R.unbound

/-- What a step does, if it is straight-line code. A generator that is suspended resumes with the
answer. -/
def Step.run? (R : Runtime V) (σ : State V) : Step → Option (State V)
  | .action a => some (a.run R σ)
  | .suspend v =>
    let q := Request.suspend (v.denote R σ)
    some { σ.ask q with sent := (R.answer (σ.trace ++ [q])).object }
  | _ => none

/-- What some steps do one after another, if they are straight-line code. -/
def runAll? (R : Runtime V) (σ : State V) : List Step → Option (State V)
  | [] => some σ
  | s :: rest => (s.run? R σ).bind (runAll? R · rest)

variable {R : Runtime V} {σ τ : State V}

@[simp] theorem runAll?_nil : runAll? R σ [] = some σ := rfl

@[simp] theorem runAll?_action (a : Action) (rest : List Step) :
    runAll? R σ (.action a :: rest) = runAll? R (a.run R σ) rest := rfl

theorem runAll?_append {code rest : List Step} (h : runAll? R σ code = some τ) :
    runAll? R σ (code ++ rest) = runAll? R τ rest := by
  induction code generalizing σ with
  | nil =>
    cases h
    rfl
  | cons s code ih =>
    obtain ⟨σ₁, hs, h₁⟩ := Option.bind_eq_some_iff.mp h
    rw [List.cons_append, runAll?, hs]
    exact ih h₁

@[simp] theorem State.askInto_slots (t : Temp) (q : Request V) :
    (σ.askInto R t q).slots = σ.slots :=
  rfl

@[simp] theorem State.askInto_trace (t : Temp) (q : Request V) :
    (σ.askInto R t q).trace = σ.trace ++ [q] := rfl

theorem State.setTemp_same (t : Temp) (c : Content V) : (σ.setTemp t c).temps t.name = c :=
  Function.update_self ..

theorem State.setTemp_of_ne {t w : Temp} (h : w.name ≠ t.name) (c : Content V) :
    (σ.setTemp t c).temps w.name = σ.temps w.name := Function.update_of_ne h ..

/-- A value denotes the same in two states with the same slots that agree on its variables. -/
theorem Value.denote_congr {v : Value} (hslots : τ.slots = σ.slots)
    (htemps : ∀ w ∈ v.temps, τ.temps w.name = σ.temps w.name) : v.denote R τ = v.denote R σ := by
  cases v with
  | temp t => exact congrArg Content.object (htemps t (List.mem_singleton.mpr rfl))
  | item t index =>
    exact congrFun (congrArg Content.element (htemps t (List.mem_singleton.mpr rfl))) _
  | slot x => exact congrFun hslots x
  | str _ | int _ | noneObject | verbatim _ => rfl

end Code

end Goward
