import Mathlib.Logic.Function.Iterate
import Goward.Proofs.StructuredRuns

/-!
# Goto programs

The linear code of a body, read as a program of labels and jumps. What a test decides and whether
there is an item is left to the oracle, and a generator is entered again at its checkpoint as soon
as it is suspended. Labels are where linear code says they are: no label stands in it twice.
-/

namespace Goward.Code

/-- Where a goto program is. -/
inductive Point
  /-- In front of the rest of its code. -/
  | running (rest : List Instr)
  /-- The body was left. -/
  | returned
  /-- The code came to its end, or a jump went to a label that is not there. -/
  | lost

/-- The code of a body, and the labels that a suspended frame is entered at. -/
structure GotoProgram where
  code : List Instr
  checkpoints : List Nat

/-- A state of a goto program. -/
structure Config where
  point : Point
  /-- What the tests have stored. -/
  conds : Temp → Bool
  /-- The checkpoint where the frame is entered next. -/
  pending : Option Nat
  /-- What happened so far. -/
  trace : List Effect

/-- The goto program of structured code. -/
def GotoProgram.ofBody (body : List Step) : GotoProgram :=
  let code := Step.linearAll body {}
  ⟨code.1, code.2.checkpoints⟩

/-- The state in which a goto program begins. -/
def GotoProgram.entry (g : GotoProgram) : Config where
  point := .running g.code
  conds _ := false
  pending := none
  trace := []

/-- The code behind a label. -/
def Instr.behind (n : Nat) : List Instr → Option (List Instr)
  | [] => none
  | .label m :: rest => if m = n then some rest else behind n rest
  | .action _ :: rest | .goto _ :: rest | .gotoUnless _ _ :: rest | .next _ _ _ :: rest
  | .pushCheckpoint _ :: rest | .ret _ :: rest | .function _ _ _ _ _ :: rest
  | .classBody _ _ _ _ _ _ :: rest => behind n rest

/-- What the tests have stored after an action. -/
def Action.condsAfter (a : Action) (answer : Bool) (conds : Temp → Bool) : Temp → Bool :=
  match a with
  | .store dst (.isTrue _) => fun t => if t = dst then answer else conds t
  | _ => conds

namespace GotoProgram

/-- Where a jump to a label goes. -/
def place (g : GotoProgram) (n : Nat) : Point := (Instr.behind n g.code).elim .lost .running

/-- Where a suspended frame is entered again. -/
def reenter (g : GotoProgram) (n : Nat) : Point :=
  if n ∈ g.checkpoints then g.place n else .lost

/-- One step. A program that was left, or is lost, does nothing any more. -/
def step (g : GotoProgram) (ω : Oracle) (c : Config) : Config :=
  match c.point with
  | .running [] => { c with point := .lost }
  | .running (.label _ :: rest) => { c with point := .running rest }
  | .running (.goto n :: _) => { c with point := g.place n }
  | .running (.gotoUnless cond n :: rest) =>
    { c with point := if c.conds cond then .running rest else g.place n }
  | .running (.next item iterator n :: rest) =>
    let trace := c.trace ++ [.next item iterator]
    { c with point := if ω trace then .running rest else g.place n, trace }
  | .running (.pushCheckpoint n :: rest) => { c with point := .running rest, pending := some n }
  | .running (.ret v :: _) =>
    match c.pending with
    | none => { c with point := .returned, trace := c.trace ++ [.returned v] }
    | some n => { c with point := g.reenter n, pending := none, trace := c.trace ++ [.suspended v] }
  | .running (.action a :: rest) =>
    let trace := c.trace ++ (Step.action a).effects
    { c with point := .running rest, conds := a.condsAfter (ω trace) c.conds, trace }
  | .running (.function dst header temps checkpoints body :: rest) =>
    { c with
      point := .running rest
      trace := c.trace ++ [.ran (.function dst header temps checkpoints body)] }
  | .running (.classBody dst name names temps checkpoints body :: rest) =>
    { c with
      point := .running rest
      trace := c.trace ++ [.ran (.classBody dst name names temps checkpoints body)] }
  | .returned => c
  | .lost => c

/-- The state after some steps. -/
def after (g : GotoProgram) (ω : Oracle) (k : Nat) : Config := (g.step ω)^[k] g.entry

variable {g : GotoProgram} {ω : Oracle} {c : Config} {rest : List Instr}

theorem step_label {n : Nat} (h : c.point = .running (.label n :: rest)) :
    g.step ω c = { c with point := .running rest } := by
  rw [step, h]

theorem step_goto {n : Nat} (h : c.point = .running (.goto n :: rest)) :
    g.step ω c = { c with point := g.place n } := by
  rw [step, h]

theorem step_gotoUnless {cond : Temp} {n : Nat}
    (h : c.point = .running (.gotoUnless cond n :: rest)) :
    g.step ω c = { c with point := if c.conds cond then .running rest else g.place n } := by
  rw [step, h]

theorem step_action {a : Action} (h : c.point = .running (.action a :: rest)) :
    g.step ω c =
      { point := .running rest
        conds := a.condsAfter (ω (c.trace ++ (Step.action a).effects)) c.conds
        pending := c.pending
        trace := c.trace ++ (Step.action a).effects } := by
  rw [step, h]

theorem step_next {item iterator : Temp} {n : Nat}
    (h : c.point = .running (.next item iterator n :: rest)) :
    g.step ω c =
      { c with
        point := if ω (c.trace ++ [.next item iterator]) then .running rest else g.place n
        trace := c.trace ++ [.next item iterator] } := by
  rw [step, h]

theorem step_pushCheckpoint {n : Nat} (h : c.point = .running (.pushCheckpoint n :: rest)) :
    g.step ω c = { c with point := .running rest, pending := some n } := by
  rw [step, h]

theorem step_ret {v : Option Value} (h : c.point = .running (.ret v :: rest))
    (hp : c.pending = none) :
    g.step ω c = { c with point := .returned, trace := c.trace ++ [.returned v] } := by
  rw [step, h]
  simp only [hp]

theorem step_suspend {v : Option Value} {n : Nat} (h : c.point = .running (.ret v :: rest))
    (hp : c.pending = some n) :
    g.step ω c =
      { c with point := g.reenter n, pending := none, trace := c.trace ++ [.suspended v] } := by
  rw [step, h]
  simp only [hp]

theorem step_function {dst : Temp} {header : FunctionHeader} {temps : List Temp}
    {checkpoints : List Nat} {body : List Instr}
    (h : c.point = .running (.function dst header temps checkpoints body :: rest)) :
    g.step ω c =
      { c with
        point := .running rest
        trace := c.trace ++ [.ran (.function dst header temps checkpoints body)] } := by
  rw [step, h]

theorem step_classBody {dst names : Temp} {name : String} {temps : List Temp}
    {checkpoints : List Nat} {body : List Instr}
    (h : c.point = .running (.classBody dst name names temps checkpoints body :: rest)) :
    g.step ω c =
      { c with
        point := .running rest
        trace := c.trace ++ [.ran (.classBody dst name names temps checkpoints body)] } := by
  rw [step, h]

/-! ### Traces grow -/

theorem trace_step (g : GotoProgram) (ω : Oracle) (c : Config) :
    c.trace <+: (g.step ω c).trace := by
  unfold step
  split
  · exact List.prefix_rfl
  · exact List.prefix_rfl
  · exact List.prefix_rfl
  · exact List.prefix_rfl
  · exact List.prefix_append _ _
  · exact List.prefix_rfl
  · split
    · exact List.prefix_append _ _
    · exact List.prefix_append _ _
  · exact List.prefix_append _ _
  · exact List.prefix_append _ _
  · exact List.prefix_append _ _
  · exact List.prefix_rfl
  · exact List.prefix_rfl

theorem trace_iterate (g : GotoProgram) (ω : Oracle) (k : Nat) (c : Config) :
    c.trace <+: ((g.step ω)^[k] c).trace := by
  induction k generalizing c with
  | zero => exact List.prefix_rfl
  | succ k ih =>
    rw [Function.iterate_succ_apply]
    exact (trace_step g ω c).trans (ih _)

theorem after_add (g : GotoProgram) (ω : Oracle) (k m : Nat) :
    g.after ω (m + k) = (g.step ω)^[m] (g.after ω k) := Function.iterate_add_apply _ m k _

theorem trace_after_mono (g : GotoProgram) (ω : Oracle) {k m : Nat} (h : k ≤ m) :
    (g.after ω k).trace <+: (g.after ω m).trace := by
  obtain ⟨d, rfl⟩ := Nat.exists_eq_add_of_le' h
  rw [after_add]
  exact trace_iterate g ω d _

/-- A program that was left, or is lost, stays as it is. -/
theorem iterate_ended (k : Nat) (h : ∀ rest, c.point ≠ .running rest) :
    (g.step ω)^[k] c = c := by
  have hstep : g.step ω c = c := by
    unfold step
    split
    all_goals first
      | rfl
      | rename_i hp; exact absurd hp (h _)
  exact Function.iterate_fixed hstep k

theorem after_ended {k m : Nat} (hk : ∀ rest, (g.after ω k).point ≠ .running rest) (h : k ≤ m) :
    g.after ω m = g.after ω k := by
  obtain ⟨d, rfl⟩ := Nat.exists_eq_add_of_le' h
  rw [after_add]
  exact iterate_ended d hk

end GotoProgram

end Goward.Code
