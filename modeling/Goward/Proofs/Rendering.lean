import Goward.Proofs.Properties
import Goward.Proofs.StructuredRuns

/-!
# Lowering renders statements

Lowering to structured code keeps the meaning of statements: it succeeds only where the statements
have a run, and the code that it puts down has the same run. The code has the shape that tests,
loops and jumps out of loops are given.
-/

namespace Goward

open Goward.Code

variable {ω : Oracle}

namespace Build

variable {α β : Type}

/-- A build that puts down straight code. -/
def Straight (b : Build α) : Prop := ∀ t r, b.run t = .ok r → ∀ s ∈ r.code, s.IsStraight

namespace Straight

theorem emit {s : Step} (h : s.IsStraight) : Straight (emit s) := by
  intro t r hr
  cases hr
  intro s' hs
  obtain rfl := List.mem_singleton.mp hs
  exact h

theorem onTree (f : ScopeTree → α × ScopeTree) : Straight (onTree f) := by
  intro t r h
  cases h
  exact nofun

theorem lift (x : Except Error α) : Straight (lift x) := by
  intro t r h
  obtain ⟨a, -, rfl⟩ := run_lift_ok.mp h
  exact nofun

theorem fail (c : Cause) : Straight (fail c : Build α) := by
  intro t r h
  cases h

/-- Code that is not put down does not count. -/
theorem codeOf (b : Build Unit) : Straight (codeOf b) := by
  intro t r h
  obtain ⟨inner, -, rfl⟩ := run_codeOf_ok.mp h
  exact nofun

theorem bind {b : Build α} {f : α → Build β} (hb : Straight b) (hf : ∀ a, Straight (f a)) :
    Straight (b >>= f) := by
  intro t r h
  obtain ⟨first, h₁, second, h₂, rfl⟩ := run_bind_ok.mp h
  intro s hs
  rcases List.mem_append.mp hs with hs | hs
  · exact hb t first h₁ s hs
  · exact hf first.value first.tree second h₂ s hs

end Straight

theorem straight : ExprProperty Straight where
  pure a := .lift (.ok a)
  bind := .bind
  fail _ := .fail _
  tree := .onTree fun t => (t, t)
  act _ := .emit trivial
  alloc _ _ := .onTree _
  free id v := by
    intro t r h
    obtain ⟨u, -, rfl⟩ := run_free_ok.mp h
    exact nofun
  intern _ := .onTree _
  addImport _ := .onTree _
  addNative _ := .onTree _
  requireGenerator id := by
    refine .bind (.onTree fun t => (t, t)) fun t => ?_
    unfold Build.require
    split
    · exact .lift (.ok ())
    · exact .fail _
  emitSuspend _ := .emit trivial

/-- A build succeeds with the given value and leaves behind the given tree. -/
def Ends (b : Build α) (t : ScopeTree) (a : α) (u : ScopeTree) : Prop :=
  ∃ code, b.run t = .ok ⟨a, code, u⟩

namespace Ends

theorem pure (a : α) (t : ScopeTree) : Ends (pure a) t a t := ⟨[], rfl⟩

theorem of_run {b : Build α} {t : ScopeTree} {r : Built α} (h : b.run t = .ok r) :
    Ends b t r.value r.tree := ⟨r.code, h⟩

theorem bind {b : Build α} {f : α → Build β} {t u v : ScopeTree} {a : α} {c : β}
    (hb : Ends b t a u) (hf : Ends (f a) u c v) : Ends (b >>= f) t c v := by
  obtain ⟨code, hb⟩ := hb
  obtain ⟨code', hf⟩ := hf
  exact ⟨code ++ code', run_bind_ok.mpr ⟨_, hb, _, hf, rfl⟩⟩

theorem collect {b : Build α} {t : ScopeTree} {r : Built α} (h : b.run t = .ok r) :
    Ends (collect b) t (r.value, r.code) r.tree := ⟨[], run_collect_ok.mpr ⟨r, h, rfl⟩⟩

theorem codeOf {b : Build Unit} {t : ScopeTree} {r : Built Unit} (h : b.run t = .ok r) :
    Ends (codeOf b) t r.code r.tree := ⟨[], run_codeOf_ok.mpr ⟨r, h, rfl⟩⟩

theorem locate {b : Build α} {span : Span} {t u : ScopeTree} {a : α} (h : Ends b t a u) :
    Ends (locate span b) t a u := by
  obtain ⟨code, h⟩ := h
  exact ⟨code, run_locate_ok.mpr h⟩

end Ends

/-- A build of code is accompanied by one of its run: where the first one succeeds the second one
does too, with the run of the code, and leaves behind the same tree. -/
def Renders (inLoop : Bool) (ω : Oracle) (b : Build Unit) (m : Build Run) : Prop :=
  ∀ t r, b.run t = .ok r →
    (∀ s ∈ r.code, s.WellFormed inLoop) ∧ Ends m t (Step.execAll ω r.code) r.tree

namespace Renders

variable {inLoop : Bool}

theorem pure : Renders inLoop ω (pure ()) (pure .skip) := by
  intro t r h
  cases h
  refine ⟨nofun, ?_⟩
  rw [Step.execAll]
  exact .pure _ t

theorem seq {b b' : Build Unit} {m m' : Build Run} (h : Renders inLoop ω b m)
    (h' : Renders inLoop ω b' m') :
    Renders inLoop ω (b >>= fun _ => b') (m >>= fun first => m' >>= fun second =>
      Pure.pure (first.seq second)) := by
  intro t r hr
  obtain ⟨first, h₁, second, h₂, rfl⟩ := run_bind_ok.mp hr
  obtain ⟨hwf, hm⟩ := h t first h₁
  obtain ⟨hwf', hm'⟩ := h' first.tree second h₂
  constructor
  · intro s hs
    rcases List.mem_append.mp hs with hs | hs
    · exact hwf s hs
    · exact hwf' s hs
  · rw [Step.execAll_append]
    exact hm.bind (hm'.bind (.pure _ _))

theorem ofStraight {b : Build Unit} (h : Straight b) :
    Renders inLoop ω b (Build.codeOf b >>= fun code => Pure.pure (.ofCode code)) := by
  intro t r hr
  have hs := h t r hr
  refine ⟨fun s hmem => .straight (hs s hmem), ?_⟩
  rw [Step.execAll_straight hs]
  exact (Ends.codeOf hr).bind (.pure _ _)

/-- Straight code in front. -/
theorem afterStraight {b b' : Build Unit} {m : Build Run} (h : Straight b)
    (h' : Renders inLoop ω b' m) :
    Renders inLoop ω (b >>= fun _ => b') (Build.codeOf b >>= fun code => m >>= fun run =>
      Pure.pure ((Run.ofCode code).seq run)) := by
  intro t r hr
  obtain ⟨first, h₁, second, h₂, rfl⟩ := run_bind_ok.mp hr
  have hstraight := h t first h₁
  obtain ⟨hwf', hm'⟩ := h' first.tree second h₂
  constructor
  · intro s hs
    rcases List.mem_append.mp hs with hs | hs
    · exact .straight (hstraight s hs)
    · exact hwf' s hs
  · rw [Step.execAll_append, Step.execAll_straight hstraight]
    exact (Ends.codeOf h₁).bind (hm'.bind (.pure _ _))

theorem locate {b : Build Unit} {m : Build Run} (span : Span) (h : Renders inLoop ω b m) :
    Renders inLoop ω (Build.locate span b) (Build.locate span m) := by
  intro t r hr
  obtain ⟨hwf, hm⟩ := h t r (run_locate_ok.mp hr)
  exact ⟨hwf, hm.locate⟩

end Renders

end Build

open Goward.Build

/-! ### Pieces of statements -/

theorem defineFunction_straight (id : Nat) (name : String) (params : Parameters) (f : FunctionVars)
    (body : Nat → Build Unit) : Straight (defineFunction id name params f body) :=
  .bind (.onTree _) fun inner => .bind (.codeOf _) fun _ =>
    .bind (straight.declaredTemps inner) fun _ => .bind (straight.acquire id _) fun _ =>
      .bind (.emit trivial) fun _ => .bind (straight.storeName id name _) fun _ =>
        straight.release id _

theorem defineClass_straight (cx : Context) (id : Nat) (name : String) (bases : List Expr)
    (vars : VarMap) (body : Nat → Build Unit) :
    Straight (defineClass cx id name bases vars body) :=
  .bind (straight.lowerExprs id bases) fun vs => .bind (straight.acquire id _) fun _ =>
    .bind (straight.act _) fun _ => .bind (straight.releaseAll id vs) fun _ =>
      .bind (straight.acquire id _) fun _ => .bind (straight.act _) fun _ =>
        .bind (straight.intern _) fun _ => .bind (straight.act _) fun _ =>
          .bind (.onTree _) fun inner => .bind (.codeOf _) fun _ =>
            .bind (straight.declaredTemps inner) fun _ => .bind (straight.acquire id _) fun _ =>
              .bind (.emit trivial) fun _ => .bind (straight.act _) fun _ =>
                .bind (straight.intern _) fun _ => .bind (straight.callInto id _ _) fun _ =>
                  .bind (straight.storeName id name _) fun _ => straight.releaseAll id _

theorem lowerTest_isTest {id : Nat} {test : Expr} {t : ScopeTree} {r : Built (Value × Temp)}
    (h : (lowerTest id test).run t = .ok r) : Step.IsTest r.code r.value.2 := by
  obtain ⟨v, hv, second, h', rfl⟩ := run_bind_ok.mp h
  obtain ⟨cond, hc, third, hp, rfl⟩ := run_bind_ok.mp h'
  rw [run_callInto] at hc
  cases hc
  cases hp
  refine ⟨v.code ++ [.action (.acquire (v.tree.alloc id "bool").1)], v.value, by simp, ?_⟩
  intro s hs
  rcases List.mem_append.mp hs with hs | hs
  · exact straight.lowerExpr id test _ v hv s hs
  · obtain rfl := List.mem_singleton.mp hs
    trivial

theorem releaseValue_effects {id : Nat} {v : Value} {t : ScopeTree} {r : Built Unit}
    (h : (releaseValue id v).run t = .ok r) : r.code.flatMap Step.effects = [] := by
  unfold releaseValue at h
  split at h
  · obtain ⟨t', -, rfl⟩ := run_release_ok.mp h
    rfl
  · cases h
    rfl

/-- The code of a `return`: what comes before it, the step itself, and then nothing that runs. -/
theorem lowerReturn_ok {id : Nat} {value : Option Expr} {t : ScopeTree} {r : Built Unit}
    (h : (lowerReturn id value).run t = .ok r) :
    ∃ before v after, r.code = before ++ .ret v :: after ∧ (∀ s ∈ before, s.IsStraight) ∧
      (∀ s ∈ after, s.IsStraight) ∧ after.flatMap Step.effects = [] := by
  obtain ⟨scope, h₁, second, h₂, rfl⟩ := run_bind_ok.mp h
  cases h₁
  rw [List.nil_append]
  split at h₂
  · cases h₂
  · split at h₂
    · cases h₂
      exact ⟨[], none, [], rfl, nofun, nofun, rfl⟩
    · cases h₂
    · cases h₂
      exact ⟨[], some .noneObject, [], rfl, nofun, nofun, rfl⟩
    · obtain ⟨v, hv, third, h₃, rfl⟩ := run_bind_ok.mp h₂
      obtain ⟨fourth, h₄, last, hlast, rfl⟩ := run_bind_ok.mp h₃
      cases h₄
      exact ⟨v.code, some v.value, last.code, rfl, straight.lowerExpr id _ _ v hv,
        straight.releaseValue id _ _ last hlast, releaseValue_effects hlast⟩

/-- Nothing happens after the step that returns. -/
theorem lowerReturn_renders (id : Nat) (inLoop : Bool) (value : Option Expr) :
    Renders inLoop ω (lowerReturn id value) (do
      let code ← codeOf (lowerReturn id value)
      return (Run.ofCode code).seq (.stop .left)) := by
  intro t r h
  obtain ⟨before, v, after, hcode, hbefore, hafter, hsilent⟩ := lowerReturn_ok h
  constructor
  · intro s hs
    rw [hcode] at hs
    rcases List.mem_append.mp hs with hs | hs
    · exact .straight (hbefore s hs)
    · rcases List.mem_cons.mp hs with rfl | hs
      · exact .ret v
      · exact .straight (hafter s hs)
  · have hrun : Step.execAll ω r.code = (Run.ofCode r.code).seq (.stop .left) := by
      have hret : Run.ofCode (.ret v :: after) = .emit [.returned v] := by
        rw [Run.ofCode, List.flatMap_cons, hsilent, List.append_nil, Step.effects]
      rw [hcode, Step.execAll_append, Step.execAll_straight hbefore, Step.execAll, Step.exec,
        Run.seq_assoc, Run.stop_left_seq, Run.ofCode_append, hret, Run.seq_assoc]
    rw [hrun]
    exact (Ends.codeOf h).bind (.pure _ _)

/-- The other side of a branch or a loop. -/
theorem lowerElse_ok {cx : Context} {id : Nat} {inLoop : Bool} {body : List Stmt}
    {m : Build Run} {t : ScopeTree} {r : Built (Option (List Step))}
    (hm : Renders inLoop ω (lowerBody cx id inLoop body) m)
    (h : (lowerElse cx id inLoop body).run t = .ok r) :
    r.code = [] ∧ (∀ other ∈ r.value, ∀ s ∈ other, s.WellFormed inLoop) ∧
      Ends m t (Step.execElse ω r.value) r.tree := by
  cases body with
  | nil =>
    cases h
    refine ⟨rfl, nofun, ?_⟩
    obtain ⟨-, hm⟩ := hm t ⟨(), [], t⟩ rfl
    rw [Step.execAll] at hm
    exact hm
  | cons s rest =>
    obtain ⟨steps, h₁, second, h₂, rfl⟩ := run_bind_ok.mp h
    obtain ⟨inner, hinner, rfl⟩ := run_codeOf_ok.mp h₁
    cases h₂
    obtain ⟨hwf, hm⟩ := hm t inner hinner
    refine ⟨rfl, ?_, hm⟩
    intro other hother
    cases hother
    exact hwf

theorem releaseTest_silent {id : Nat} {tested : Value × Temp} {t : ScopeTree} {r : Built Unit}
    (h : (releaseTest id tested).run t = .ok r) : r.code.flatMap Step.effects = [] := by
  obtain ⟨first, h₁, second, h₂, rfl⟩ := run_bind_ok.mp h
  obtain ⟨t', -, rfl⟩ := run_release_ok.mp h₂
  rw [List.flatMap_append, releaseValue_effects h₁]
  rfl

/-- Branches and `while` loops: a test, a body that begins by giving back what the test has taken,
and another side. -/
theorem tested_renders {cx : Context} {id : Nat} {inLoop inner : Bool} {body orelse : List Stmt}
    {mb mo : Build Run} {step : List Step → Temp → List Step → Option (List Step) → Step}
    (test : Expr) (run : List Step → Run → Run → Run)
    (hbody : Renders inner ω (lowerBody cx id inner body) mb)
    (helse : Renders inLoop ω (lowerBody cx id inLoop orelse) mo)
    (hwf : ∀ check cond steps other, Step.IsTest check cond → (∀ s ∈ steps, s.WellFormed inner) →
      (∀ o ∈ other, ∀ s ∈ o, s.WellFormed inLoop) →
      (step check cond steps other).WellFormed inLoop)
    (hrun : ∀ check cond steps other, Step.IsTest check cond →
      (step check cond steps other).exec ω =
        run check (Step.execAll ω steps) (Step.execElse ω other)) :
    Renders inLoop ω
      (do
        let (tested, check) ← collect (lowerTest id test)
        let steps ← codeOf do
          releaseTest id tested
          lowerBody cx id inner body
        let other ← lowerElse cx id inLoop orelse
        emit (step check tested.2 steps other))
      (do
        let (tested, check) ← collect (lowerTest id test)
        releaseTest id tested
        let body ← mb
        let orelse ← mo
        return run check body orelse) := by
  intro t r h
  obtain ⟨tested, h₁, second, h₂, rfl⟩ := run_bind_ok.mp h
  obtain ⟨check, hcheck, rfl⟩ := run_collect_ok.mp h₁
  obtain ⟨steps, h₃, third, h₄, rfl⟩ := run_bind_ok.mp h₂
  obtain ⟨whole, hwhole, rfl⟩ := run_codeOf_ok.mp h₃
  obtain ⟨other, h₅, last, h₆, rfl⟩ := run_bind_ok.mp h₄
  obtain ⟨released, hreleased, inside, hinside, rfl⟩ := run_bind_ok.mp hwhole
  cases h₆
  have htest := lowerTest_isTest hcheck
  have hstraight := straight.releaseTest id check.value _ released hreleased
  obtain ⟨hwfBody, hmb⟩ := hbody _ inside hinside
  obtain ⟨hcode, hwfElse, hmo⟩ := lowerElse_ok helse h₅
  -- Giving back what the test has taken runs nothing.
  have hsteps : Step.execAll ω (released.code ++ inside.code) = Step.execAll ω inside.code := by
    rw [Step.execAll_append, Step.execAll_straight hstraight, Run.ofCode,
      releaseTest_silent hreleased, Run.emit_nil, Run.skip_seq]
  constructor
  · intro s hs
    rw [hcode] at hs
    obtain rfl := List.mem_singleton.mp hs
    refine hwf _ _ _ _ htest ?_ hwfElse
    intro s hs
    rcases List.mem_append.mp hs with hs | hs
    · exact .straight (hstraight s hs)
    · exact hwfBody s hs
  · rw [hcode]
    show Ends _ t (Step.execAll ω [step check.code check.value.2 (released.code ++ inside.code)
      other.value]) other.tree
    rw [Step.execAll_single, hrun _ _ _ _ htest, hsteps]
    exact (Ends.collect hcheck).bind ((Ends.of_run hreleased).bind
      (hmb.bind (hmo.bind (.pure _ _))))

theorem startLoop_straight (id : Nat) (iter : Expr) : Straight (startLoop id iter) :=
  .bind (straight.lowerExpr id iter) fun _ => .bind (straight.callInto id _ _) fun _ =>
    .bind (straight.releaseValue id _) fun _ => .bind (straight.acquire id _) fun _ =>
      straight.pure _

theorem bindItem_straight (id : Nat) (item : Temp) (target : Expr) :
    Straight (bindItem id item target) :=
  .bind (straight.storeInto id _ target) fun _ => straight.release id item

/-- `for` loops: the setup of the iterator and of the room for an item, and then the loop. -/
theorem forEach_renders {cx : Context} {id : Nat} {inLoop : Bool} {body orelse : List Stmt}
    {mb mo : Build Run} (target iter : Expr)
    (hbody : Renders true ω (lowerBody cx id true body) mb)
    (helse : Renders inLoop ω (lowerBody cx id inLoop orelse) mo) :
    Renders inLoop ω
      (do
        let v ← lowerExpr id iter
        let iterator ← callInto id Temp.objectType (.iter v)
        releaseValue id v
        let item ← acquire id Temp.objectType
        let bind ← codeOf do
          storeInto id (.temp item) target
          release id item
        let steps ← codeOf (lowerBody cx id true body)
        let other ← lowerElse cx id inLoop orelse
        emit (.forLoop iterator item bind steps other)
        release id iterator)
      (do
        let ((iterator, item), setup) ← collect (startLoop id iter)
        let bind ← codeOf (bindItem id item target)
        let body ← mb
        let orelse ← mo
        release id iterator
        return (Run.ofCode setup).seq
          (.loop ω (.emit [.next item iterator]) ((Run.ofCode bind).seq body) orelse)) := by
  intro t r h
  obtain ⟨v, hv, second, h₁, rfl⟩ := run_bind_ok.mp h
  obtain ⟨iterator, hiter, third, h₂, rfl⟩ := run_bind_ok.mp h₁
  obtain ⟨released, hreleased, fourth, h₃, rfl⟩ := run_bind_ok.mp h₂
  obtain ⟨item, hitem, fifth, h₄, rfl⟩ := run_bind_ok.mp h₃
  obtain ⟨bind, hbind, sixth, h₅, rfl⟩ := run_bind_ok.mp h₄
  obtain ⟨binding, hbinding, rfl⟩ := run_codeOf_ok.mp hbind
  obtain ⟨steps, hsteps, seventh, h₆, rfl⟩ := run_bind_ok.mp h₅
  obtain ⟨inside, hinside, rfl⟩ := run_codeOf_ok.mp hsteps
  obtain ⟨other, hother, eighth, h₇, rfl⟩ := run_bind_ok.mp h₆
  obtain ⟨loop, hloop, last, hlast, rfl⟩ := run_bind_ok.mp h₇
  cases hloop
  have hstart : (startLoop id iter).run t = .ok ⟨(iterator.value, item.value),
      v.code ++ (iterator.code ++ (released.code ++ (item.code ++ []))), item.tree⟩ :=
    run_bind_ok.mpr ⟨v, hv, _, run_bind_ok.mpr ⟨iterator, hiter, _, run_bind_ok.mpr
      ⟨released, hreleased, _, run_bind_ok.mpr ⟨item, hitem, _, rfl, rfl⟩, rfl⟩, rfl⟩, rfl⟩
  have hsetup := startLoop_straight id iter t _ hstart
  have hbindStraight := bindItem_straight id item.value target _ binding hbinding
  obtain ⟨u, -, hrelease⟩ := run_release_ok.mp hlast
  obtain ⟨hwfBody, hmb⟩ := hbody _ inside hinside
  obtain ⟨hcode, hwfElse, hmo⟩ := lowerElse_ok helse hother
  have hwhole : v.code ++ (iterator.code ++ (released.code ++ (item.code ++ ([] ++ ([] ++
      (other.code ++ ([.forLoop iterator.value item.value binding.code inside.code other.value] ++
        last.code))))))) = (v.code ++ (iterator.code ++ (released.code ++ (item.code ++ [])))) ++
      [.forLoop iterator.value item.value binding.code inside.code other.value,
        .action (.release iterator.value)] := by
    rw [hcode, hrelease]
    simp only [List.append_assoc, List.nil_append, List.cons_append]
  show (∀ s ∈ v.code ++ _, _) ∧ Ends _ t (Step.execAll ω (v.code ++ _)) last.tree
  rw [hwhole]
  constructor
  · intro s hs
    rcases List.mem_append.mp hs with hs | hs
    · exact .straight (hsetup s hs)
    · rcases List.mem_cons.mp hs with rfl | hs
      · exact .forLoop hbindStraight hwfBody hwfElse
      · obtain rfl := List.mem_singleton.mp hs
        exact .straight trivial
  · have hskip : (Step.action (.release iterator.value)).exec ω = .skip := by
      rw [Step.exec]
      exact Run.emit_nil
    rw [Step.execAll_append, Step.execAll_straight hsetup, Step.execAll, Step.execAll_single, hskip,
      Run.seq_skip, Step.exec_forLoop, Step.execAll_straight hbindStraight]
    exact (Ends.collect hstart).bind ((Ends.codeOf hbinding).bind (hmb.bind (hmo.bind
      ((Ends.of_run hlast).bind (.pure _ _)))))

/-- `break` and `continue`. -/
theorem loopControl_renders {inLoop : Bool} {s : Step} {o : Outcome} {c : Cause}
    (hwf : s.WellFormed true) (hrun : s.exec ω = .stop o) :
    Renders inLoop ω (if inLoop then emit s else fail c) (return .stop o) := by
  intro t r h
  cases inLoop with
  | false => cases h
  | true =>
    cases h
    constructor
    · intro s' hs
      obtain rfl := List.mem_singleton.mp hs
      exact hwf
    · rw [Step.execAll_single, hrun]
      exact .pure _ t

mutual

theorem Stmt.interpret_renders (cx : Context) (id : Nat) (ω : Oracle) (inLoop : Bool) :
    (s : Stmt) → Renders inLoop ω (lowerStmt cx id inLoop s) (s.interpret cx id ω)
  | .mk span kind =>
    .afterStraight (straight.annotate cx span)
      (.locate span (StmtKind.interpret_renders cx id ω inLoop kind))

theorem StmtKind.interpret_renders (cx : Context) (id : Nat) (ω : Oracle) (inLoop : Bool) :
    (kind : StmtKind) → Renders inLoop ω (lowerKind cx id inLoop kind) (kind.interpret cx id ω)
  | .assign targets value =>
    .ofStraight (.bind (straight.lowerExpr id value) fun _ =>
      .bind (straight.storeIntoAll id _ targets) fun _ => straight.releaseValue id _)
  | .augAssign (.name x) op value => .ofStraight (straight.updateName id x op value)
  | .augAssign (.str _) _ _ | .augAssign (.int _) _ _ | .augAssign (.tuple _) _ _
  | .augAssign (.list _) _ _ | .augAssign (.attr _ _) _ _ | .augAssign (.call _ _) _ _
  | .augAssign (.binop _ _ _) _ _ | .augAssign (.yield _) _ _ => .ofStraight (.fail _)
  | .delete targets => .ofStraight (straight.deleteAll id targets)
  | .global _ => .ofStraight (straight.pure ())
  | .imports names => .ofStraight (straight.importModules id names)
  | .importsFrom path names level => .ofStraight (straight.importFrom id path names level)
  | .functionDef name params body =>
    .ofStraight (.bind (.lift _) fun f => defineFunction_straight id name params f _)
  | .classDef name bases body =>
    .ofStraight (.bind (.lift _) fun vars => defineClass_straight cx id name bases vars _)
  | .forEach target iter body orelse =>
    forEach_renders target iter (Stmt.interpretBody_renders cx id ω true body)
      (Stmt.interpretBody_renders cx id ω inLoop orelse)
  | .whileLoop test body orelse =>
    tested_renders test (fun check body orelse => .loop ω (.ofCode check) body orelse)
      (Stmt.interpretBody_renders cx id ω true body)
      (Stmt.interpretBody_renders cx id ω inLoop orelse) (fun _ _ _ _ => .whileLoop)
      fun check cond steps other htest => by
        rw [Step.exec_whileLoop, Step.execAll_straight htest.straight]
  | .branch test body orelse =>
    tested_renders test (fun check body orelse => (Run.ofCode check).seq (.choose ω body orelse))
      (Stmt.interpretBody_renders cx id ω inLoop body)
      (Stmt.interpretBody_renders cx id ω inLoop orelse) (fun _ _ _ _ => .branch)
      fun check cond steps other htest => by
        rw [Step.exec_branch, Step.execAll_straight htest.straight]
  | .withItems _ _ => .ofStraight (.fail _)
  | .tryExcept _ _ _ _ => .ofStraight (.fail _)
  | .ret value => lowerReturn_renders id inLoop value
  | .expr value =>
    .ofStraight (.bind (straight.lowerExpr id value) fun _ => straight.releaseValue id _)
  | .breakLoop => loopControl_renders .breakLoop (by rw [Step.exec])
  | .continueLoop => loopControl_renders .continueLoop (by rw [Step.exec])
  | .pass => .ofStraight (straight.pure ())

theorem Stmt.interpretBody_renders (cx : Context) (id : Nat) (ω : Oracle) (inLoop : Bool) :
    (body : List Stmt) →
      Renders inLoop ω (lowerBody cx id inLoop body) (Stmt.interpretBody cx id ω body)
  | [] => .pure
  | s :: rest =>
    .seq (Stmt.interpret_renders cx id ω inLoop s) (Stmt.interpretBody_renders cx id ω inLoop rest)

end

theorem bodyWithEnd_wellFormed {cx : Context} {id : Nat} {returnsNone : Bool} {body : List Stmt}
    {t : ScopeTree} {r : Built (List Step)}
    (h : (bodyWithEnd returnsNone (lowerBody cx id false body)).run t = .ok r) :
    ∀ s ∈ r.value, s.WellFormed false := by
  obtain ⟨whole, hwhole, rfl⟩ := run_codeOf_ok.mp h
  obtain ⟨inner, hinner, last, hlast, rfl⟩ := run_bind_ok.mp hwhole
  cases hlast
  obtain ⟨hwf, -⟩ := Stmt.interpretBody_renders cx id (fun _ => false) false body t inner hinner
  intro s hs
  rcases List.mem_append.mp hs with hs | hs
  · exact hwf s hs
  · obtain rfl := List.mem_singleton.mp hs
    exact .ret _

end Goward
