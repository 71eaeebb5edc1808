import Goward.Proofs.Interpretation

/-!
# Runs of structured code

The run of structured code, and the shape that the code of a body has: tests are straight and end by
storing their condition, and a loop is around every `break` and `continue`. So no `break` or
`continue` gets out of the code of a body.
-/

namespace Goward

namespace Code

namespace Run

theorem seq_assoc (a b c : Run) : (a.seq b).seq c = a.seq (b.seq c) := by
  funext n h
  simp only [seq]
  rcases a n h with ⟨o, h'⟩
  cases o <;> rfl

@[simp] theorem skip_seq (a : Run) : skip.seq a = a := rfl

@[simp] theorem seq_skip (a : Run) : a.seq skip = a := by
  funext n h
  simp only [seq]
  rcases a n h with ⟨o, h'⟩
  cases o <;> rfl

@[simp] theorem stop_left_seq (a : Run) : (stop .left).seq a = stop .left := rfl

@[simp] theorem emit_nil : emit [] = skip := by
  funext n h
  simp [emit, skip, stop]

theorem emit_append (es fs : List Effect) : emit (es ++ fs) = (emit es).seq (emit fs) := by
  funext n h
  simp [emit, seq]

theorem ofCode_append (a b : List Step) : ofCode (a ++ b) = (ofCode a).seq (ofCode b) := by
  simp only [ofCode, List.flatMap_append, emit_append]

/-- A run that does not leave or continue a loop around it. -/
def Confined (a : Run) : Prop := ∀ n h, (a n h).1 ≠ .broke ∧ (a n h).1 ≠ .continued

theorem Confined.emit (es : List Effect) : Confined (emit es) := fun _ _ => ⟨nofun, nofun⟩

theorem Confined.skip : Confined skip := fun _ _ => ⟨nofun, nofun⟩

theorem Confined.seq {a b : Run} (ha : Confined a) (hb : Confined b) : Confined (a.seq b) := by
  intro n h
  have hstop := ha n h
  simp only [Run.seq]
  rcases hr : a n h with ⟨o, h'⟩
  rw [hr] at hstop
  cases o with
  | done => exact hb n h'
  | broke | continued | left | cut => exact hstop

theorem Confined.choose {ω : Oracle} {a b : Run} (ha : Confined a) (hb : Confined b) :
    Confined (choose ω a b) := by
  intro n h
  simp only [Run.choose]
  by_cases hω : ω h = true
  · rw [if_pos hω]
    exact ha n h
  · rw [if_neg hω]
    exact hb n h

/-- A `break` or `continue` in its body ends a round or the loop, and goes no further. -/
theorem Confined.rounds {ω : Oracle} {es : List Effect} {body orelse : Run} (ho : Confined orelse)
    (k : Nat) : Confined (rounds ω (.emit es) body orelse k) := by
  induction k with
  | zero => exact fun _ _ => ⟨nofun, nofun⟩
  | succ k ih =>
    refine .seq (.emit es) (.choose ?_ ho)
    intro n h
    simp only [Run.round]
    rcases body n h with ⟨o, h'⟩
    cases o with
    | done | continued => exact ih n h'
    | broke | left | cut => exact ⟨nofun, nofun⟩

theorem Confined.loop {ω : Oracle} {es : List Effect} {body orelse : Run} (ho : Confined orelse) :
    Confined (loop ω (.emit es) body orelse) := fun n h => ho.rounds n n h

/-- Code at whose end a body is left, and out of which no loop is left or continued, leaves the body
or is cut short. -/
theorem Confined.leaves {a : Run} (ha : Confined a) (es : List Effect) (n : Nat)
    (h : List Effect) :
    (a.seq ((Run.emit es).seq (.stop .left)) n h).1 = .left ∨
      (a.seq ((Run.emit es).seq (.stop .left)) n h).1 = .cut := by
  have hstop := ha n h
  simp only [Run.seq]
  rcases hr : a n h with ⟨o, h'⟩
  rw [hr] at hstop
  cases o with
  | done => exact .inl rfl
  | broke => exact absurd rfl hstop.1
  | continued => exact absurd rfl hstop.2
  | left => exact .inl rfl
  | cut => exact .inr rfl

end Run

/-! ### Runs of steps -/

mutual

/-- The run of a step. -/
def Step.exec (ω : Oracle) : Step → Run
  | .action a => .emit (Step.action a).effects
  | .suspend v => .emit (Step.suspend v).effects
  | .ret v => (Run.emit [.returned v]).seq (.stop .left)
  | .breakLoop => .stop .broke
  | .continueLoop => .stop .continued
  | .branch test _ body none => (execAll ω test).seq (.choose ω (execAll ω body) .skip)
  | .branch test _ body (some orelse) =>
    (execAll ω test).seq (.choose ω (execAll ω body) (execAll ω orelse))
  | .whileLoop test _ body none => .loop ω (execAll ω test) (execAll ω body) .skip
  | .whileLoop test _ body (some orelse) =>
    .loop ω (execAll ω test) (execAll ω body) (execAll ω orelse)
  | .forLoop iterator item bind body none =>
    .loop ω (.emit [.next item iterator]) ((execAll ω bind).seq (execAll ω body)) .skip
  | .forLoop iterator item bind body (some orelse) =>
    .loop ω (.emit [.next item iterator]) ((execAll ω bind).seq (execAll ω body))
      (execAll ω orelse)
  | .function dst header temps body => .emit (Step.function dst header temps body).effects
  | .classBody dst name names temps body =>
    .emit (Step.classBody dst name names temps body).effects

/-- The run of steps one after another. -/
def Step.execAll (ω : Oracle) : List Step → Run
  | [] => .skip
  | s :: rest => (s.exec ω).seq (execAll ω rest)

end

/-- The run of the other side of a branch or a loop, if there is one. -/
def Step.execElse (ω : Oracle) (orelse : Option (List Step)) : Run :=
  orelse.elim .skip (execAll ω)

namespace Step

variable {ω : Oracle}

theorem exec_branch (test : List Step) (cond : Temp) (body : List Step)
    (orelse : Option (List Step)) :
    (branch test cond body orelse).exec ω =
      (execAll ω test).seq (.choose ω (execAll ω body) (execElse ω orelse)) := by
  cases orelse <;> rw [exec] <;> rfl

theorem exec_whileLoop (test : List Step) (cond : Temp) (body : List Step)
    (orelse : Option (List Step)) :
    (whileLoop test cond body orelse).exec ω =
      .loop ω (execAll ω test) (execAll ω body) (execElse ω orelse) := by
  cases orelse <;> rw [exec] <;> rfl

theorem exec_forLoop (iterator item : Temp) (bind body : List Step)
    (orelse : Option (List Step)) :
    (forLoop iterator item bind body orelse).exec ω =
      .loop ω (.emit [.next item iterator]) ((execAll ω bind).seq (execAll ω body))
        (execElse ω orelse) := by
  cases orelse <;> rw [exec] <;> rfl

theorem execAll_append (a b : List Step) :
    execAll ω (a ++ b) = (execAll ω a).seq (execAll ω b) := by
  induction a with
  | nil => rw [execAll]; rfl
  | cons s rest ih => rw [List.cons_append, execAll, execAll, ih, Run.seq_assoc]

theorem execAll_single (s : Step) : execAll ω [s] = s.exec ω := by
  rw [execAll, execAll, Run.seq_skip]

/-- A step without control structure. -/
def IsStraight : Step → Prop
  | .action _ | .suspend _ | .function _ _ _ _ | .classBody _ _ _ _ _ => True
  | .ret _ | .breakLoop | .continueLoop | .branch _ _ _ _ | .whileLoop _ _ _ _
  | .forLoop _ _ _ _ _ => False

/-- Straight code runs from its begin to its end. -/
theorem execAll_straight {code : List Step} (h : ∀ s ∈ code, s.IsStraight) :
    execAll ω code = .ofCode code := by
  induction code with
  | nil => rw [execAll]; exact Run.emit_nil.symm
  | cons s rest ih =>
    have hs : s.exec ω = .emit s.effects := by
      have := h s List.mem_cons_self
      cases s with
      | action _ | suspend _ | function _ _ _ _ | classBody _ _ _ _ _ => rw [exec]
      | _ => exact this.elim
    rw [execAll, hs, ih fun s hs => h s (List.mem_cons_of_mem _ hs)]
    exact (Run.emit_append _ _).symm

/-- Code that decides a test: straight, and at its end it stores the condition. -/
def IsTest (test : List Step) (cond : Temp) : Prop :=
  ∃ code v, test = code ++ [.action (.store cond (.isTrue v))] ∧ ∀ s ∈ code, s.IsStraight

theorem IsTest.straight {test : List Step} {cond : Temp} (h : IsTest test cond) :
    ∀ s ∈ test, s.IsStraight := by
  obtain ⟨code, v, rfl, hcode⟩ := h
  intro s hs
  rcases List.mem_append.mp hs with hs | hs
  · exact hcode s hs
  · obtain rfl := List.mem_singleton.mp hs
    trivial

/-- A step as lowering puts it down, inside a loop or not. -/
inductive WellFormed : Bool → Step → Prop
  | straight {inLoop : Bool} {s : Step} : s.IsStraight → WellFormed inLoop s
  | ret {inLoop : Bool} (v : Option Value) : WellFormed inLoop (.ret v)
  | breakLoop : WellFormed true .breakLoop
  | continueLoop : WellFormed true .continueLoop
  | branch {inLoop : Bool} {test body : List Step} {cond : Temp} {orelse : Option (List Step)} :
    IsTest test cond → (∀ s ∈ body, WellFormed inLoop s) →
    (∀ other ∈ orelse, ∀ s ∈ other, WellFormed inLoop s) →
    WellFormed inLoop (.branch test cond body orelse)
  | whileLoop {inLoop : Bool} {test body : List Step} {cond : Temp}
    {orelse : Option (List Step)} :
    IsTest test cond → (∀ s ∈ body, WellFormed true s) →
    (∀ other ∈ orelse, ∀ s ∈ other, WellFormed inLoop s) →
    WellFormed inLoop (.whileLoop test cond body orelse)
  | forLoop {inLoop : Bool} {iterator item : Temp} {bind body : List Step}
    {orelse : Option (List Step)} :
    (∀ s ∈ bind, s.IsStraight) → (∀ s ∈ body, WellFormed true s) →
    (∀ other ∈ orelse, ∀ s ∈ other, WellFormed inLoop s) →
    WellFormed inLoop (.forLoop iterator item bind body orelse)

theorem execAll_confined {code : List Step} (h : ∀ s ∈ code, (s.exec ω).Confined) :
    (execAll ω code).Confined := by
  induction code with
  | nil =>
    rw [execAll]
    exact .skip
  | cons s rest ih =>
    rw [execAll]
    exact (h s List.mem_cons_self).seq (ih fun s hs => h s (List.mem_cons_of_mem _ hs))

theorem execElse_confined {orelse : Option (List Step)}
    (h : ∀ other ∈ orelse, ∀ s ∈ other, (s.exec ω).Confined) : (execElse ω orelse).Confined := by
  cases orelse with
  | none => exact .skip
  | some code => exact execAll_confined (h code rfl)

/-- No `break` or `continue` gets out of code that is in no loop. -/
theorem WellFormed.confined {inLoop : Bool} {s : Step} (h : s.WellFormed inLoop)
    (hl : inLoop = false) : (s.exec ω).Confined := by
  induction h with
  | @straight _ s hs =>
    have hrun : s.exec ω = .ofCode [s] := by
      rw [← execAll_single, execAll_straight]
      intro s' hs'
      obtain rfl := List.mem_singleton.mp hs'
      exact hs
    rw [hrun]
    exact .emit _
  | ret v =>
    rw [exec]
    exact .seq (.emit _) fun _ _ => ⟨nofun, nofun⟩
  | breakLoop | continueLoop => cases hl
  | branch htest _ _ ihBody ihElse =>
    rw [exec_branch, execAll_straight htest.straight]
    exact .seq (.emit _) (.choose (execAll_confined fun s hs => ihBody s hs hl)
      (execElse_confined fun o ho s hs => ihElse o ho s hs hl))
  | whileLoop htest _ _ _ ihElse =>
    rw [exec_whileLoop, execAll_straight htest.straight]
    exact .loop (execElse_confined fun o ho s hs => ihElse o ho s hs hl)
  | forLoop _ _ _ _ ihElse =>
    rw [exec_forLoop]
    exact .loop (execElse_confined fun o ho s hs => ihElse o ho s hs hl)

end Step

end Code

end Goward
