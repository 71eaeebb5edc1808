import Goward.Proofs.ControlFlow
import Goward.Proofs.LabelUse
import Goward.Proofs.YieldPlaces

/-!
# Suspensions

Each `yield` that a body evaluates in its own scope becomes one place where its code suspends, and
there are no others. With it the labels of a body are accounted for: the main result is that they
are well formed and that there is a case of the dispatch for each `yield` and for nothing else.
-/

namespace Goward

open Goward.Build Goward.Code

mutual

/-- How many times an expression yields. -/
def Expr.yieldCount : Expr → Nat
  | .yield none => 1
  | .yield (some value) => yieldCount value + 1
  | .tuple elts => yieldCountAll elts
  | .list elts => yieldCountAll elts
  | .attr obj _ => yieldCount obj
  | .call fn args => yieldCount fn + yieldCountAll args
  | .binop left _ right => yieldCount left + yieldCount right
  | .name _ | .str _ | .int _ => 0

/-- How many times some expressions yield. -/
def Expr.yieldCountAll : List Expr → Nat
  | [] => 0
  | e :: rest => yieldCount e + yieldCountAll rest

end

/-- How many times some expressions yield, wherever they stand. -/
def yieldCount (es : List (Place × Expr)) : Nat := Expr.yieldCountAll (es.map (·.2))

@[simp] theorem yieldCount_nil : yieldCount [] = 0 := rfl

@[simp] theorem yieldCount_cons (p : Place) (e : Expr) (es : List (Place × Expr)) :
    yieldCount ((p, e) :: es) = e.yieldCount + yieldCount es := rfl

@[simp] theorem yieldCount_append (es es' : List (Place × Expr)) :
    yieldCount (es ++ es') = yieldCount es + yieldCount es' := by
  induction es with
  | nil => rw [List.nil_append, yieldCount_nil, Nat.zero_add]
  | cons head rest ih =>
    obtain ⟨p, e⟩ := head
    rw [List.cons_append, yieldCount_cons, yieldCount_cons, ih, Nat.add_assoc]

@[simp] theorem yieldCount_all (p : Place) (es : List Expr) :
    yieldCount (p.all es) = Expr.yieldCountAll es := by
  rw [yieldCount, Place.all, List.map_map]
  exact congrArg Expr.yieldCountAll (List.map_id es)

namespace Code

/-- Code suspends the given number of times, once at each of that many places. -/
def Resumes (code : List Step) (k : Nat) : Prop :=
  ∀ l, (Instr.resumes (Step.linearAll code l).1).length = k

namespace Resumes

variable {a b test bind body : List Step} {orelse : Option (List Step)} {j k n : Nat}

theorem nil : Resumes [] 0 := by
  intro l
  rw [Step.linearAll]
  rfl

theorem append (ha : Resumes a j) (hb : Resumes b k) : Resumes (a ++ b) (j + k) := by
  intro l
  rw [Step.linearAll_append, Instr.resumes_append, List.length_append, ha, hb]

theorem single {s : Step} (h : ∀ l, (Instr.resumes (s.linear l).1).length = k) :
    Resumes [s] k := by
  intro l
  rw [Step.linearAll, Step.linearAll, List.append_nil]
  exact h l

theorem loopJump (label : Loop → Nat) (l : Labels) :
    (Instr.resumes (Instr.loopJump label l)).length = 0 := by
  rw [Instr.loopJump]
  cases l.innermost? <;> rfl

/-- The other side of a branch or a loop suspends the given number of times. -/
def Else (orelse : Option (List Step)) (k : Nat) : Prop := Resumes (orelse.getD []) k

theorem Else.none_eq (h : Else none k) : k = 0 := (h {}).symm.trans (nil {})

theorem branch (cond : Temp) (ht : Resumes test j) (hb : Resumes body k) (ho : Else orelse n) :
    Resumes [.branch test cond body orelse] (j + (k + n)) := by
  refine single fun l => ?_
  cases orelse with
  | none =>
    rw [ho.none_eq, Step.linear]
    simp only [Instr.resumes_append, List.length_append]
    rw [ht, hb]
    rfl
  | some orelse =>
    rw [Step.linear]
    simp only [Instr.resumes_append, List.length_append]
    rw [ht, hb, show (Instr.resumes (Step.linearAll orelse _).1).length = n from ho _]
    simp [Nat.add_assoc]

theorem whileLoop (cond : Temp) (ht : Resumes test j) (hb : Resumes body k) (ho : Else orelse n) :
    Resumes [.whileLoop test cond body orelse] (j + (k + n)) := by
  refine single fun l => ?_
  cases orelse with
  | none =>
    rw [ho.none_eq, Step.linear]
    simp only [Instr.resumes_append, List.length_append]
    rw [ht, hb]
    simp
  | some orelse =>
    rw [Step.linear]
    simp only [Instr.resumes_append, List.length_append]
    rw [ht, hb, show (Instr.resumes (Step.linearAll orelse _).1).length = n from ho _]
    simp [Nat.add_assoc]

theorem forLoop (iterator item : Temp) (hi : Resumes bind j) (hb : Resumes body k)
    (ho : Else orelse n) : Resumes [.forLoop iterator item bind body orelse] (j + (k + n)) := by
  refine single fun l => ?_
  cases orelse with
  | none =>
    rw [ho.none_eq, Step.linear]
    simp only [Instr.resumes_append, List.length_append]
    rw [hi, hb]
    simp
  | some orelse =>
    rw [Step.linear]
    simp only [Instr.resumes_append, List.length_append]
    rw [hi, hb, show (Instr.resumes (Step.linearAll orelse _).1).length = n from ho _]
    simp [Nat.add_assoc]

end Resumes

end Code

namespace Build

variable {α β : Type} {j k : Nat}

/-- A build whose code suspends the given number of times. -/
def Suspends (b : Build α) (k : Nat) : Prop := ∀ t r, b.run t = .ok r → Resumes r.code k

namespace Suspends

theorem onTree (f : ScopeTree → α × ScopeTree) : Suspends (Build.onTree f) 0 := by
  intro t r h
  cases h
  exact .nil

theorem pure (a : α) : Suspends (pure a : Build α) 0 := onTree fun t => (a, t)

theorem tree : Suspends Build.tree 0 := onTree fun t => (t, t)

theorem fail (c : Cause) : Suspends (Build.fail c : Build α) k := by
  intro t r h
  cases h

theorem lift (x : Except Error α) : Suspends (Build.lift x) 0 := by
  intro t r h
  obtain ⟨a, -, rfl⟩ := run_lift_ok.mp h
  exact .nil

theorem require (b : Bool) (c : Cause) : Suspends (Build.require b c) 0 := by
  intro t r h
  obtain ⟨-, rfl⟩ := run_require_ok.mp h
  exact .nil

theorem emit {s : Step} (h : Resumes [s] k) : Suspends (Build.emit s) k := by
  intro t r hr
  cases hr
  exact h

theorem act (a : Action) : Suspends (Build.act a) 0 := by
  refine emit (.single fun l => ?_)
  rw [Step.linear]
  rfl

theorem bind {b : Build α} {f : α → Build β} (hb : Suspends b j) (hf : ∀ a, Suspends (f a) k) :
    Suspends (b >>= f) (j + k) := by
  intro t r h
  obtain ⟨first, h₁, second, h₂, rfl⟩ := run_bind_ok.mp h
  exact (hb t first h₁).append (hf first.value first.tree second h₂)

/-- Code in front that does not suspend. -/
theorem after {b : Build α} {f : α → Build β} (hb : Suspends b 0) (hf : ∀ a, Suspends (f a) k) :
    Suspends (b >>= f) k := by
  have h := hb.bind hf
  rwa [Nat.zero_add] at h

/-- Code behind that does not suspend. -/
theorem andThen {b : Build α} {f : α → Build β} (hb : Suspends b k) (hf : ∀ a, Suspends (f a) 0) :
    Suspends (b >>= f) k := hb.bind hf

theorem locate {b : Build α} (span : Span) (h : Suspends b k) :
    Suspends (Build.locate span b) k := fun t r hr => h t r (run_locate_ok.mp hr)

/-- Code that is not put down. -/
theorem codeOf (b : Build Unit) : Suspends (Build.codeOf b) 0 := by
  intro t r h
  obtain ⟨inner, -, rfl⟩ := run_codeOf_ok.mp h
  exact .nil

/-- The code of a build is put down by what comes after it. -/
theorem collect {b : Build α} {f : α × List Step → Build β} (hb : Suspends b j)
    (hf : ∀ a code, Resumes code j → Suspends (f (a, code)) k) :
    Suspends (Build.collect b >>= f) k := by
  intro t r h
  obtain ⟨first, h₁, second, h₂, rfl⟩ := run_bind_ok.mp h
  obtain ⟨inner, hinner, rfl⟩ := run_collect_ok.mp h₁
  exact hf inner.value inner.code (hb t inner hinner) inner.tree second h₂

theorem withCode {b : Build Unit} {f : List Step → Build β} (hb : Suspends b j)
    (hf : ∀ code, Resumes code j → Suspends (f code) k) : Suspends (Build.codeOf b >>= f) k := by
  intro t r h
  obtain ⟨first, h₁, second, h₂, rfl⟩ := run_bind_ok.mp h
  obtain ⟨inner, hinner, rfl⟩ := run_codeOf_ok.mp h₁
  exact hf inner.code (hb t inner hinner) inner.tree second h₂

end Suspends

/-- A build of the other side of a branch or a loop, whose code suspends the given number of
times. -/
def SuspendsElse (b : Build (Option (List Step))) (k : Nat) : Prop :=
  ∀ t r, b.run t = .ok r → r.code = [] ∧ Resumes.Else r.value k

theorem SuspendsElse.bind {b : Build (Option (List Step))} {f : Option (List Step) → Build β}
    (hb : SuspendsElse b j) (hf : ∀ other, Resumes.Else other j → Suspends (f other) k) :
    Suspends (b >>= f) k := by
  intro t r h
  obtain ⟨other, h₁, second, h₂, rfl⟩ := run_bind_ok.mp h
  obtain ⟨hcode, hother⟩ := hb t other h₁
  rw [hcode]
  exact hf other.value hother other.tree second h₂

theorem silent : Property fun b => Suspends b 0 where
  pure := .pure
  bind hb hf := hb.andThen hf
  tree := .tree
  act := .act
  alloc id type := .onTree _
  free id v := by
    intro t r h
    obtain ⟨u, -, rfl⟩ := run_free_ok.mp h
    exact .nil
  intern s := .onTree _
  addImport path := .onTree _
  addNative path := .onTree _
  fail _ := .fail _

variable {id : Nat}

theorem suspend_suspends (v : Value) : Suspends (suspend id v) 1 := by
  refine Suspends.bind (j := 1) (k := 0) (.emit (.single fun l => ?_)) fun _ =>
    silent.bind (silent.releaseValue id v) fun _ => silent.constructFrom id .received []
  rw [Step.linear]
  rfl

theorem requireGenerator_suspends (id : Nat) : Suspends (requireGenerator id) 0 :=
  .after .tree fun _ => .require _ _

mutual

theorem lowerExpr_suspends : (e : Expr) → Suspends (lowerExpr id e) e.yieldCount
  | .name x => silent.readName id x
  | .str s => silent.bind (silent.intern s) fun _ => .pure _
  | .int _ => .pure _
  | .tuple elts => (lowerExprs_suspends elts).andThen fun _ => silent.constructFrom id _ _
  | .list elts => (lowerExprs_suspends elts).andThen fun _ => silent.constructFrom id _ _
  | .attr obj name =>
    (lowerExpr_suspends obj).andThen fun _ => silent.bind (silent.intern name) fun _ =>
      silent.callWith id _ _
  | .call fn args =>
    (lowerExpr_suspends fn).bind fun _ => (lowerExprs_suspends args).andThen fun _ =>
      silent.callWith id _ _
  | .binop left _ right =>
    (lowerExpr_suspends left).bind fun _ => (lowerExpr_suspends right).andThen fun _ =>
      silent.callWith id _ _
  | .yield none => .after (requireGenerator_suspends id) fun _ => suspend_suspends _
  | .yield (some value) =>
    .after (requireGenerator_suspends id) fun _ =>
      (lowerExpr_suspends value).bind fun v => suspend_suspends v

theorem lowerExprs_suspends :
    (es : List Expr) → Suspends (lowerExprs id es) (Expr.yieldCountAll es)
  | [] => .pure _
  | e :: rest =>
    (lowerExpr_suspends e).bind fun _ => (lowerExprs_suspends rest).andThen fun _ => .pure _

end

/-! ### Targets -/

theorem unpack_suspends {k : Nat} (v : Value) (n : Nat) {store : Temp → Build Unit}
    (hstore : ∀ items, Suspends (store items) k) : Suspends (unpack id v n store) k :=
  .after (silent.acquire id _) fun _ => .after (.act _) fun _ => .after (.act _) fun _ =>
    (hstore _).andThen fun _ => silent.release id _

mutual

theorem storeInto_suspends : (v : Value) → (e : Expr) →
    Suspends (storeInto id v e) e.yieldCount
  | v, .name x => silent.storeName id x v
  | _, .attr obj name =>
    (lowerExpr_suspends obj).andThen fun o => silent.bind (silent.intern name) fun _ =>
      silent.bind (silent.act _) fun _ => silent.releaseValue id o
  | v, .tuple elts => unpack_suspends v _ fun items => storeItems_suspends items 0 elts
  | v, .list elts => unpack_suspends v _ fun items => storeItems_suspends items 0 elts
  | _, .str _ | _, .int _ | _, .call _ _ | _, .binop _ _ _ | _, .yield _ => .fail _

theorem storeItems_suspends (items : Temp) : (index : Nat) → (es : List Expr) →
    Suspends (storeItems id items index es) (Expr.yieldCountAll es)
  | _, [] => .pure _
  | index, e :: rest =>
    (storeInto_suspends (.item items index) e).bind fun _ => storeItems_suspends items _ rest

end

theorem storeIntoAll_suspends (v : Value) (es : List Expr) :
    Suspends (storeIntoAll id v es) (Expr.yieldCountAll es) := by
  induction es with
  | nil => exact .pure _
  | cons e rest ih => exact (storeInto_suspends v e).bind fun _ => ih

/-- Only names can be deleted, and they do not yield. -/
theorem deleteAll_suspends : (es : List Expr) →
    Suspends (deleteAll id es) (Expr.yieldCountAll es)
  | [] => .pure _
  | .name x :: rest => by
    rw [Expr.yieldCountAll, Expr.yieldCount]
    exact (silent.deleteName id x).bind fun _ => deleteAll_suspends rest
  | .str _ :: _ | .int _ :: _ | .tuple _ :: _ | .list _ :: _ | .attr _ _ :: _ | .call _ _ :: _
  | .binop _ _ _ :: _ | .yield _ :: _ => .fail _

theorem lowerTest_suspends (test : Expr) : Suspends (lowerTest id test) test.yieldCount :=
  (lowerExpr_suspends test).andThen fun _ => silent.bind (silent.callInto id _ _) fun _ => .pure _

theorem updateName_suspends (x : String) (op : BinOp) (value : Expr) :
    Suspends (updateName id x op value) value.yieldCount :=
  .after (silent.readName id x) fun _ => (lowerExpr_suspends value).andThen fun _ =>
    silent.bind (silent.callInto id _ _) fun _ => silent.bind (silent.releaseAll id _) fun _ =>
      silent.bind (silent.storeName id x _) fun _ => silent.release id _

theorem emit_suspends {s : Step} (h : ∀ l, Instr.resumes (s.linear l).1 = []) :
    Suspends (emit s) 0 := .emit (.single fun l => congrArg List.length (h l))

theorem lowerReturn_suspends (value : Option Expr) :
    Suspends (lowerReturn id value) (Expr.yieldCountAll value.toList) := by
  have hret (v : Option Value) : Suspends (emit (.ret v)) 0 :=
    emit_suspends fun l => by rw [Step.linear]; rfl
  refine .after .tree fun t => ?_
  split
  · exact .fail _
  · split
    · exact hret none
    · exact .fail _
    · exact hret _
    · exact (lowerExpr_suspends _).andThen fun v => silent.bind (hret _) fun _ =>
        silent.releaseValue id v

theorem bodyWithEnd_suspends {k : Nat} (returnsNone : Bool) {body : Build Unit}
    (h : Suspends body k) {t : ScopeTree} {r : Built (List Step)}
    (hr : (bodyWithEnd returnsNone body).run t = .ok r) : Resumes r.value k := by
  obtain ⟨inner, hinner, rfl⟩ := run_codeOf_ok.mp hr
  refine (h.andThen fun _ => emit_suspends fun l => ?_) t inner hinner
  rw [Step.linear]
  rfl

/-- The body of a nested function has its own suspensions. -/
theorem defineFunction_suspends (name : String) (params : Parameters) (f : FunctionVars)
    (body : Nat → Build Unit) : Suspends (defineFunction id name params f body) 0 :=
  .after (.onTree _) fun inner => .after (.codeOf _) fun _ =>
    .after (silent.declaredTemps inner) fun _ => .after (silent.acquire id _) fun fn =>
      .after (emit_suspends fun l => by rw [Step.linear]; rfl) fun _ =>
        .after (silent.storeName id name _) fun _ => silent.release id fn

theorem defineClass_suspends (cx : Context) (name : String) (bases : List Expr) (vars : VarMap)
    (body : Nat → Build Unit) :
    Suspends (defineClass cx id name bases vars body) (Expr.yieldCountAll bases) :=
  (lowerExprs_suspends bases).andThen fun vs => .after (silent.acquire id _) fun _ =>
    .after (.act _) fun _ => .after (silent.releaseAll id vs) fun _ =>
      .after (silent.acquire id _) fun _ => .after (.act _) fun _ =>
        .after (silent.intern _) fun _ => .after (.act _) fun _ =>
          .after (.onTree _) fun inner => .after (.codeOf _) fun _ =>
            .after (silent.declaredTemps inner) fun _ => .after (silent.acquire id _) fun _ =>
              .after (emit_suspends fun l => by rw [Step.linear]; rfl) fun _ =>
                .after (.act _) fun _ => .after (silent.intern _) fun _ =>
                  .after (silent.callInto id _ _) fun _ =>
                    .after (silent.storeName id name _) fun _ => silent.releaseAll id _

end Build

open Goward.Build

mutual

theorem lowerStmt_suspends (cx : Context) (id : Nat) : (inLoop : Bool) → (s : Stmt) →
    Suspends (lowerStmt cx id inLoop s) (yieldCount s.expressions)
  | inLoop, .mk span kind =>
    .after (silent.annotate cx span) fun _ => (lowerKind_suspends cx id inLoop kind).locate span

theorem lowerKind_suspends (cx : Context) (id : Nat) : (inLoop : Bool) → (kind : StmtKind) →
    Suspends (lowerKind cx id inLoop kind) (yieldCount kind.expressions)
  | _, .assign targets value => by
    rw [StmtKind.expressions, yieldCount_cons, yieldCount_all]
    exact (lowerExpr_suspends value).bind fun v =>
      (storeIntoAll_suspends v targets).andThen fun _ => silent.releaseValue id v
  | _, .augAssign (.name x) op value => by
    rw [StmtKind.expressions, yieldCount_cons, yieldCount_cons, yieldCount_nil, Expr.yieldCount,
      Nat.zero_add]
    exact updateName_suspends x op value
  | _, .augAssign (.str _) _ _ | _, .augAssign (.int _) _ _ | _, .augAssign (.tuple _) _ _
  | _, .augAssign (.list _) _ _ | _, .augAssign (.attr _ _) _ _ | _, .augAssign (.call _ _) _ _
  | _, .augAssign (.binop _ _ _) _ _ | _, .augAssign (.yield _) _ _ => .fail _
  | _, .delete targets => by
    rw [StmtKind.expressions, yieldCount_all]
    exact deleteAll_suspends targets
  | _, .global _ => .pure ()
  | _, .imports names => silent.importModules id names
  | _, .importsFrom path names level => silent.importFrom id path names level
  | _, .functionDef name params body =>
    .after (.lift _) fun f => defineFunction_suspends name params f _
  | _, .classDef name bases body => by
    rw [StmtKind.expressions, yieldCount_all]
    exact .after (.lift _) fun vars => defineClass_suspends cx name bases vars _
  | inLoop, .forEach target iter body orelse => by
    rw [StmtKind.expressions, yieldCount_cons, yieldCount_cons, yieldCount_append]
    refine (lowerExpr_suspends iter).bind fun v => .after (silent.callInto id _ _) fun iterator =>
      .after (silent.releaseValue id v) fun _ => .after (silent.acquire id _) fun item => ?_
    refine .withCode ((storeInto_suspends _ target).andThen fun _ => silent.release id item)
      fun bind hbind => .withCode (lowerBody_suspends cx id true body) fun steps hsteps => ?_
    exact (lowerElse_suspends cx id inLoop orelse).bind fun other hother =>
      (Suspends.emit (.forLoop iterator item hbind hsteps hother)).andThen fun _ =>
        silent.release id iterator
  | inLoop, .whileLoop test body orelse => by
    rw [StmtKind.expressions, yieldCount_cons, yieldCount_append]
    refine .collect (lowerTest_suspends test) fun tested check hcheck =>
      .withCode (.after (silent.releaseTest id tested) fun _ => lowerBody_suspends cx id true body)
        fun steps hsteps => ?_
    exact (lowerElse_suspends cx id inLoop orelse).bind fun other hother =>
      .emit (.whileLoop tested.2 hcheck hsteps hother)
  | inLoop, .branch test body orelse => by
    rw [StmtKind.expressions, yieldCount_cons, yieldCount_append]
    refine .collect (lowerTest_suspends test) fun tested check hcheck =>
      .withCode (.after (silent.releaseTest id tested) fun _ => lowerBody_suspends cx id inLoop body)
        fun steps hsteps => ?_
    exact (lowerElse_suspends cx id inLoop orelse).bind fun other hother =>
      .emit (.branch tested.2 hcheck hsteps hother)
  | _, .withItems _ _ => .fail _
  | _, .tryExcept _ _ _ _ => .fail _
  | _, .ret value => by
    rw [StmtKind.expressions, yieldCount_all]
    exact lowerReturn_suspends value
  | _, .expr value => by
    rw [StmtKind.expressions, yieldCount_cons, yieldCount_nil]
    exact (lowerExpr_suspends value).andThen fun v => silent.releaseValue id v
  | inLoop, .breakLoop => by
    unfold lowerKind
    split
    · exact emit_suspends fun l => List.eq_nil_of_length_eq_zero (Resumes.loopJump _ l)
    · exact .fail _
  | inLoop, .continueLoop => by
    unfold lowerKind
    split
    · exact emit_suspends fun l => List.eq_nil_of_length_eq_zero (Resumes.loopJump _ l)
    · exact .fail _
  | _, .pass => .pure ()

theorem lowerElse_suspends (cx : Context) (id : Nat) : (inLoop : Bool) → (body : List Stmt) →
    SuspendsElse (lowerElse cx id inLoop body) (yieldCount (Stmt.expressionsOfBody body))
  | _, [] => by
    intro t r h
    cases h
    exact ⟨rfl, .nil⟩
  | inLoop, s :: rest => by
    intro t r h
    obtain ⟨steps, h₁, last, h₂, rfl⟩ := run_bind_ok.mp h
    obtain ⟨inner, hinner, rfl⟩ := run_codeOf_ok.mp h₁
    cases h₂
    rw [Stmt.expressionsOfBody, yieldCount_append]
    exact ⟨rfl, ((lowerStmt_suspends cx id inLoop s).bind fun _ =>
      lowerBody_suspends cx id inLoop rest) t inner hinner⟩

theorem lowerBody_suspends (cx : Context) (id : Nat) : (inLoop : Bool) → (body : List Stmt) →
    Suspends (lowerBody cx id inLoop body) (yieldCount (Stmt.expressionsOfBody body))
  | _, [] => .pure ()
  | inLoop, s :: rest => by
    rw [Stmt.expressionsOfBody, yieldCount_append]
    exact (lowerStmt_suspends cx id inLoop s).bind fun _ => lowerBody_suspends cx id inLoop rest

end

/-- The labels of every body that compiles are well formed: each is put down once, they are numbered
from 1 without a gap, jumps and cases of the dispatch name them all and name no other ones. The
cases of the dispatch are the places where the code resumes, in ascending order, each right behind
the return that suspends, and there is one for each `yield` that the body evaluates in its own
scope. -/
theorem labels_well_formed (cx : Context) (id : Nat) (returnsNone : Bool) (body : List Stmt)
    {t : ScopeTree} {r : Built (List Step)}
    (h : (bodyWithEnd returnsNone (lowerBody cx id false body)).run t = .ok r) :
    (GotoProgram.ofBody r.value).WellLabelled (Step.linearAll r.value {}).2.count ∧
      (GotoProgram.ofBody r.value).checkpoints.length =
        yieldCount (Stmt.expressionsOfBody body) := by
  have hlabels := GotoProgram.ofBody_wellLabelled (bodyWithEnd_wellFormed h)
  refine ⟨hlabels, ?_⟩
  rw [hlabels.checkpoints]
  exact bodyWithEnd_suspends returnsNone (lowerBody_suspends cx id false body) h {}

theorem labels_well_formed_for :
    ∃ r, (bodyWithEnd false (lowerBody { options := {}, source := none } 1 false
        Stmt.yieldingLoop)).run .inGenerator = .ok r ∧
      (GotoProgram.ofBody r.value).WellLabelled (Step.linearAll r.value {}).2.count ∧
      (GotoProgram.ofBody r.value).checkpoints.length = 1 := by
  have hok : ((bodyWithEnd false (lowerBody { options := {}, source := none } 1 false
      Stmt.yieldingLoop)).run .inGenerator).toBool = true := by decide +kernel
  cases hr : (bodyWithEnd false (lowerBody { options := {}, source := none } 1 false
      Stmt.yieldingLoop)).run .inGenerator with
  | error e =>
    rw [hr] at hok
    cases hok
  | ok r =>
    obtain ⟨hlabels, hcount⟩ := labels_well_formed _ _ _ _ hr
    exact ⟨r, rfl, hlabels, hcount⟩

end Goward
