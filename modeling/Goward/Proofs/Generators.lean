import Goward.Proofs.Compilation
import Goward.Proofs.YieldFailures

/-!
# Generators

A function is a generator if a value of its body yields, and code is generated for a `yield` only in
a generator. A `yield` in a target or in the base of a class belongs to a function all the same, so
a function that yields nowhere else is not recognised and has no code. Main result: the functions
for which detection is exact, and that these are the modules that `yield` does not keep from
compiling.
-/

namespace Goward

open Goward.Build Goward.Code
open ScopeTree (growsTo_treeRelation)

/-- Code can be generated for every `yield` that belongs to the body: it is that of a function, and
a value yields too. -/
def CodeBlock.Heeded (b : CodeBlock) : Prop := b.Yields → b.isFunction = true ∧ b.YieldsValue

/-- A body nested at some depth has a `yield` for which there is no code. -/
def CodeBlock.Stray (b : CodeBlock) : Prop := ∃ c, CodeBlock.Within c b ∧ ¬c.Heeded

/-- Whether the code of a body is that of a generator. -/
def CodeBlock.isGenerator (b : CodeBlock) : Bool := b.isFunction && Stmt.anyYields b.body

theorem CodeBlock.not_heeded_iff {b : CodeBlock} :
    ¬b.Heeded ↔ b.isGenerator = false ∧ b.Yields := by
  unfold Heeded isGenerator YieldsValue
  rw [← Stmt.anyYields_iff]
  cases b.isFunction <;> simp [and_comm]

theorem CodeBlock.stray_iff {b : CodeBlock} :
    b.Stray ↔ (b.isGenerator = false ∧ b.Yields) ∨ ∃ c ∈ Stmt.blocksOfBody b.body, c.Stray := by
  rw [← not_heeded_iff]
  constructor
  · rintro ⟨d, hd, h⟩
    cases hd with
    | self => exact .inl h
    | nested hc hd => exact .inr ⟨_, hc, d, hd, h⟩
  · rintro (h | ⟨c, hc, d, hd, h⟩)
    · exact ⟨b, .self b, h⟩
    · exact ⟨d, .nested hc hd, h⟩

/-- Among some expressions and bodies of a scope there is a `yield` without code; `generator` tells
whether the scope is a generator. -/
def Faulty (generator : Bool) (es : List (Place × Expr)) (bs : List CodeBlock) : Prop :=
  (generator = false ∧ Yields es) ∨ ∃ b ∈ bs, b.Stray

theorem yields_append {es es' : List (Place × Expr)} :
    Yields (es ++ es') ↔ Yields es ∨ Yields es' := by
  simp [Yields, yieldsAt_append, exists_or]

theorem yields_cons {p : Place} {e : Expr} {es : List (Place × Expr)} :
    Yields ((p, e) :: es) ↔ e.HasYield ∨ Yields es := by
  simp [Yields, yieldsAt_cons, exists_or]

theorem yields_all {p : Place} {es : List Expr} : Yields (p.all es) ↔ ∃ e ∈ es, e.HasYield := by
  simp [Yields, yieldsAt_all]

@[simp] theorem not_yields_nil : ¬Yields [] := by simp [Yields]

theorem faulty_append {g : Bool} {es es' : List (Place × Expr)} {bs bs' : List CodeBlock} :
    Faulty g (es ++ es') (bs ++ bs') ↔ Faulty g es bs ∨ Faulty g es' bs' := by
  simp only [Faulty, yields_append, List.mem_append, or_and_right, exists_or, and_or_left]
  exact or_or_or_comm

theorem stray_iff_faulty {b : CodeBlock} :
    b.Stray ↔ Faulty b.isGenerator (Stmt.expressionsOfBody b.body) (Stmt.blocksOfBody b.body) :=
  CodeBlock.stray_iff

variable {id : Nat} {g : Bool}

namespace Judged

variable {α β : Type} {id : Nat} {g : Bool} {P : Prop}

theorem lift {x : Except Error α} {f : α → Build β}
    (hq : ∀ e, x = .error e → e.cause ≠ yieldOutside)
    (hk : ∀ a, Keeps ScopeTree.GrowsTo (f a)) (hf : ∀ a, x = .ok a → Judged id g (f a) P) :
    Judged id g (Build.lift x >>= f) P where
  keeps := .bind growsTo_treeRelation (.lift growsTo_treeRelation x) hk
  not_of_ok t r ht h := by
    obtain ⟨first, h₁, second, h₂, -⟩ := run_bind_ok.mp h
    obtain ⟨a, ha, rfl⟩ := run_lift_ok.mp h₁
    exact (hf a ha).not_of_ok t second ht h₂
  of_error t e ht h hc := by
    rcases run_bind_error.mp h with h | ⟨first, h₁, h₂⟩
    · exact absurd hc (hq e (run_lift_error.mp h))
    · obtain ⟨a, ha, rfl⟩ := run_lift_ok.mp h₁
      exact (hf a ha).of_error t e ht h₂ hc

/-- What is built in a scope that is entered is judged by that scope. -/
theorem enter {f : Nat → Build α} {name : String} {kind : ScopeKind} {inner : Bool}
    (hkind : ∀ s : Scope, s.kind = kind → s.isGenerator = inner)
    (hf : ∀ i, Judged i inner (f i) P) :
    Judged id g (Build.onTree (·.push id name kind) >>= f) P where
  keeps := .bind growsTo_treeRelation (.onTree fun t => growsTo_treeRelation.push t id name kind)
    fun i => (hf i).keeps
  not_of_ok t r _ h := by
    obtain ⟨first, h₁, second, h₂, -⟩ := run_bind_ok.mp h
    cases h₁
    obtain ⟨s, hs, hk⟩ := t.scope?_push id name kind
    exact (hf _).not_of_ok _ second ⟨s, hs, hkind s hk⟩ h₂
  of_error t e _ h hc := by
    rcases run_bind_error.mp h with h | ⟨first, h₁, h₂⟩
    · cases h
    · cases h₁
      obtain ⟨s, hs, hk⟩ := t.scope?_push id name kind
      exact (hf _).of_error _ e ⟨s, hs, hkind s hk⟩ h₂ hc

theorem bodyWithEnd {b : Build Unit} (returnsNone : Bool) (h : Judged id g b P) :
    Judged id g (Build.bodyWithEnd returnsNone b) P :=
  (h.thenCalm fun _ => .emit _).codeOf

end Judged

theorem defineFunction_judged (name : String) (params : Parameters) (f : FunctionVars)
    {body : Nat → Build Unit} {P : Prop} (hb : ∀ inner, Judged inner f.isGenerator (body inner) P) :
    Judged id g (defineFunction id name params f body) P := by
  refine .enter (fun s hs => ?_) fun inner => ((hb inner).bodyWithEnd _).thenCalm fun _ => ?_
  · simp [Scope.isGenerator, Scope.function?, hs]
  · exact calm.bind (calm.declaredTemps inner) fun _ => calm.bind (calm.acquire id _) fun _ =>
      calm.bind (.emit _) fun _ => calm.bind (calm.storeName id name _) fun _ => calm.release id _

theorem defineClass_judged (cx : Context) (name : String) (bases : List Expr) (vars : VarMap)
    {body : Nat → Build Unit} {P : Prop} (hb : ∀ inner, Judged inner false (body inner) P) :
    Judged id g (defineClass cx id name bases vars body)
      ((g = false ∧ ∃ e ∈ bases, e.HasYield) ∨ P) := by
  refine (lowerExprs_judged bases).bind fun vs => .afterCalm (calm.acquire id _) fun _ =>
    .afterCalm (calm.act _) fun _ => .afterCalm (calm.releaseAll id vs) fun _ =>
      .afterCalm (calm.acquire id _) fun _ => .afterCalm (calm.act _) fun _ =>
        .afterCalm (calm.intern _) fun _ => .afterCalm (calm.act _) fun _ =>
          .enter (fun s hs => ?_) fun inner => ((hb inner).bodyWithEnd _).thenCalm fun _ => ?_
  · simp [Scope.isGenerator, Scope.function?, hs]
  · exact calm.bind (calm.declaredTemps inner) fun _ => calm.bind (calm.acquire id _) fun _ =>
      calm.bind (.emit _) fun _ => calm.bind (calm.act _) fun _ =>
        calm.bind (calm.intern _) fun _ => calm.bind (calm.callInto id _ _) fun _ =>
          calm.bind (calm.storeName id name _) fun _ => calm.releaseAll id _

/-! ### Statements -/

theorem faulty_cons {p : Place} {e : Expr} {es : List (Place × Expr)} {bs : List CodeBlock} :
    Faulty g ((p, e) :: es) bs ↔ (g = false ∧ e.HasYield) ∨ Faulty g es bs := by
  rw [Faulty, Faulty, yields_cons, and_or_left, or_assoc]

theorem faulty_all {p : Place} {es : List Expr} {bs : List CodeBlock} :
    Faulty g (p.all es) bs ↔ (g = false ∧ ∃ e ∈ es, e.HasYield) ∨ ∃ b ∈ bs, b.Stray := by
  rw [Faulty, yields_all]

theorem faulty_nil {bs : List CodeBlock} : Faulty g [] bs ↔ ∃ b ∈ bs, b.Stray := by simp [Faulty]

@[simp] theorem not_faulty_nil : ¬Faulty g [] [] := by simp [faulty_nil]

/-- A build outside of which nothing can yield. -/
theorem Judged.calm_nil {α : Type} {b : Build α} (h : Calm b) : Judged id g b (Faulty g [] []) :=
  (Judged.calm h).congr (iff_of_false not_false not_faulty_nil)

mutual

theorem lowerStmt_judged (cx : Context) : (id : Nat) → (g inLoop : Bool) → (s : Stmt) →
    Judged id g (lowerStmt cx id inLoop s) (Faulty g s.expressions s.blocks)
  | id, g, inLoop, .mk span kind =>
    .afterCalm (calm.annotate cx span) fun _ => (lowerKind_judged cx id g inLoop kind).locate

theorem lowerKind_judged (cx : Context) : (id : Nat) → (g inLoop : Bool) → (kind : StmtKind) →
    Judged id g (lowerKind cx id inLoop kind) (Faulty g kind.expressions kind.blocks)
  | id, g, _, .assign targets value => by
    refine ((lowerExpr_judged value).bind fun v => (storeIntoAll_judged v targets).thenCalm
      fun _ => calm.releaseValue id v).congr ?_
    simp [StmtKind.expressions, StmtKind.blocks, faulty_cons, faulty_all]
  | _, _, _, .augAssign (.name x) op value => by
    have hname : ¬(Expr.name x).HasYield := fun h => by cases h
    refine (updateName_judged x op value).congr ?_
    simp [StmtKind.expressions, StmtKind.blocks, faulty_cons, hname]
  | _, _, _, .augAssign (.str _) _ _ | _, _, _, .augAssign (.int _) _ _
  | _, _, _, .augAssign (.tuple _) _ _ | _, _, _, .augAssign (.list _) _ _
  | _, _, _, .augAssign (.attr _ _) _ _ | _, _, _, .augAssign (.call _ _) _ _
  | _, _, _, .augAssign (.binop _ _ _) _ _ | _, _, _, .augAssign (.yield _) _ _ =>
    .fail (by simp [yieldOutside])
  | _, _, _, .delete targets => by
    refine (deleteAll_judged targets).congr ?_
    simp [StmtKind.expressions, StmtKind.blocks, faulty_all]
  | _, _, _, .global _ => .calm_nil (calm.pure ())
  | id, _, _, .imports names => .calm_nil (calm.importModules id names)
  | id, _, _, .importsFrom path names level => .calm_nil (calm.importFrom id path names level)
  | id, g, _, .functionDef name params body => by
    refine .lift (fun _ he => (classifyFunction_error he).ne nofun)
      (fun f => defineFunction_keeps growsTo_treeRelation id name params f fun inner =>
        lowerBody_keeps growsTo_treeRelation cx inner false body) fun f hf => ?_
    refine (defineFunction_judged name params f fun inner =>
      lowerBody_judged cx inner f.isGenerator false body).congr ?_
    rw [isGenerator_eq hf]
    simp [StmtKind.expressions, StmtKind.blocks, faulty_nil, stray_iff_faulty,
      CodeBlock.isGenerator]
  | id, g, _, .classDef name bases body => by
    refine .lift (fun _ he => (VarMap.observeAll_error he).ne nofun)
      (fun vars => defineClass_keeps growsTo_treeRelation cx id name bases vars fun inner =>
        lowerBody_keeps growsTo_treeRelation cx inner false body) fun vars _ => ?_
    refine (defineClass_judged cx name bases vars fun inner =>
      lowerBody_judged cx inner false false body).congr ?_
    simp [StmtKind.expressions, StmtKind.blocks, faulty_all, stray_iff_faulty,
      CodeBlock.isGenerator]
  | id, g, inLoop, .forEach target iter body orelse => by
    have hbind (v : Value) (item : Temp) : Judged id g
        (codeOf (storeInto id v target >>= fun _ => release id item))
        (g = false ∧ target.HasYield) :=
      ((storeInto_judged v target).thenCalm fun _ => calm.release id item).codeOf
    have hbody := (lowerBody_judged cx id g true body).codeOf
    have helse (iterator item : Temp) (bind steps : List Step) :=
      (lowerElse_judged cx id g inLoop orelse).thenCalm fun other =>
        calm.bind (.emit (.forLoop iterator item bind steps other)) fun _ =>
          calm.release id iterator
    refine ((lowerExpr_judged iter).bind fun v => .afterCalm (calm.callInto id _ _) fun iterator =>
      .afterCalm (calm.releaseValue id v) fun _ => .afterCalm (calm.acquire id _) fun item =>
        (hbind _ item).bind fun bind => hbody.bind fun steps =>
          helse iterator item bind steps).congr ?_
    rw [StmtKind.expressions, StmtKind.blocks, faulty_cons, faulty_cons, faulty_append]
  | id, g, inLoop, .whileLoop test body orelse => by
    refine ((lowerTest_judged test).collect.bind fun tested =>
      (Judged.afterCalm (calm.releaseTest id tested.1) fun _ =>
        lowerBody_judged cx id g true body).codeOf.bind fun steps =>
          (lowerElse_judged cx id g inLoop orelse).thenCalm fun _ => .emit _).congr ?_
    rw [StmtKind.expressions, StmtKind.blocks, faulty_cons, faulty_append]
  | id, g, inLoop, .branch test body orelse => by
    refine ((lowerTest_judged test).collect.bind fun tested =>
      (Judged.afterCalm (calm.releaseTest id tested.1) fun _ =>
        lowerBody_judged cx id g inLoop body).codeOf.bind fun steps =>
          (lowerElse_judged cx id g inLoop orelse).thenCalm fun _ => .emit _).congr ?_
    rw [StmtKind.expressions, StmtKind.blocks, faulty_cons, faulty_append]
  | _, _, _, .withItems _ _ => .fail (by simp [yieldOutside])
  | _, _, _, .tryExcept _ _ _ _ => .fail (by simp [yieldOutside])
  | _, _, _, .ret value => by
    refine (lowerReturn_judged value).congr ?_
    simp [StmtKind.expressions, StmtKind.blocks, faulty_all]
  | id, _, _, .expr value => by
    refine ((lowerExpr_judged value).thenCalm fun v => calm.releaseValue id v).congr ?_
    simp [StmtKind.expressions, StmtKind.blocks, faulty_cons]
  | _, _, inLoop, .breakLoop => by
    unfold lowerKind
    split
    · exact .calm_nil (.emit _)
    · exact .fail (by simp [yieldOutside])
  | _, _, inLoop, .continueLoop => by
    unfold lowerKind
    split
    · exact .calm_nil (.emit _)
    · exact .fail (by simp [yieldOutside])
  | _, _, _, .pass => .calm_nil (calm.pure ())

theorem lowerElse_judged (cx : Context) : (id : Nat) → (g inLoop : Bool) → (body : List Stmt) →
    Judged id g (lowerElse cx id inLoop body)
      (Faulty g (Stmt.expressionsOfBody body) (Stmt.blocksOfBody body))
  | _, _, _, [] => .calm_nil (calm.pure _)
  | id, g, inLoop, s :: rest =>
    (((lowerStmt_judged cx id g inLoop s).bind fun _ =>
      lowerBody_judged cx id g inLoop rest).codeOf.thenCalm fun _ => calm.pure _).congr
        faulty_append.symm

theorem lowerBody_judged (cx : Context) : (id : Nat) → (g inLoop : Bool) → (body : List Stmt) →
    Judged id g (lowerBody cx id inLoop body)
      (Faulty g (Stmt.expressionsOfBody body) (Stmt.blocksOfBody body))
  | _, _, _, [] => .calm_nil (calm.pure _)
  | id, g, inLoop, s :: rest =>
    ((lowerStmt_judged cx id g inLoop s).bind fun _ =>
      lowerBody_judged cx id g inLoop rest).congr faulty_append.symm

end

theorem initialTree_inScope (o : Options) : InScope ScopeTree.moduleId false (initialTree o) :=
  ⟨_, rfl, rfl⟩

theorem stray_module_iff {body : List Stmt} :
    (⟨false, body⟩ : CodeBlock).Stray ↔
      Faulty false (Stmt.expressionsOfBody body) (Stmt.blocksOfBody body) := stray_iff_faulty

theorem classified_generator_iff {params : Parameters} {body : List Stmt} {f : FunctionVars}
    (h : classifyFunction params body = .ok f) :
    f.isGenerator = true ↔ (⟨true, body⟩ : CodeBlock).YieldsValue := by
  rw [isGenerator_eq h, Stmt.anyYields_iff]
  rfl

theorem CodeBlock.YieldsValue.yields {b : CodeBlock} (h : b.YieldsValue) : b.Yields := ⟨_, h⟩

/-- A function is a generator exactly if a value of its body yields; so detection is exact for those
functions that yield in a value if they yield at all. A module compiles only if this holds of every
function in it and `yield` belongs to functions only, and if so it does not fail at a `yield`. -/
theorem generator_detection (o : Options) (source : Option String) (params : Parameters)
    (body : List Stmt) :
    (∀ f, classifyFunction params body = .ok f →
      (f.isGenerator = true ↔ (⟨true, body⟩ : CodeBlock).YieldsValue) ∧
      ((f.isGenerator = true ↔ (⟨true, body⟩ : CodeBlock).Yields) ↔
        (⟨true, body⟩ : CodeBlock).Heeded)) ∧
    ((∀ b, CodeBlock.Within b ⟨false, body⟩ → b.Heeded) →
      ∀ e, compile o source body = .error e → e.cause ≠ yieldOutside) ∧
    ∀ text, compile o source body = .ok text →
      ∀ b, CodeBlock.Within b ⟨false, body⟩ → b.Heeded := by
  have hmodule := (lowerBody_judged { options := o, source := source.map .ofText }
    ScopeTree.moduleId false false body).bodyWithEnd false
  refine ⟨fun f hf => ⟨classified_generator_iff hf, ?_⟩, ?_, ?_⟩
  · rw [classified_generator_iff hf, CodeBlock.Heeded]
    constructor
    · intro h hy
      exact ⟨rfl, h.mpr hy⟩
    · intro h
      exact ⟨CodeBlock.YieldsValue.yields, fun hy => (h hy).2⟩
  · intro hall e he hc
    have hfaulty := hmodule.of_error _ e (initialTree_inScope o) (compile_error he) hc
    obtain ⟨b, hb, hstray⟩ := stray_module_iff.mpr hfaulty
    exact hstray (hall b hb)
  · intro text htext b hb
    obtain ⟨r, hr, -⟩ := compile_ok htext
    refine Classical.byContradiction fun hstray => ?_
    refine hmodule.not_of_ok _ r (initialTree_inScope o) hr ?_
    exact stray_module_iff.mp ⟨b, hb, hstray⟩

/-- The theorem at a module with one function, which yields in a statement of its own. -/
theorem generator_detection_statement :
    (∃ f, classifyFunction ⟨[], none, none⟩ [.mk .nowhere (.expr (.yield none))] = .ok f ∧
      (f.isGenerator = true ↔
        (⟨true, [.mk .nowhere (.expr (.yield none))]⟩ : CodeBlock).YieldsValue)) ∧
    ∀ e, compile {} none [.mk .nowhere (.functionDef "f" ⟨[], none, none⟩
      [.mk .nowhere (.expr (.yield none))])] = .error e → e.cause ≠ yieldOutside := by
  obtain ⟨hclassify, -, -⟩ := generator_detection {} none ⟨[], none, none⟩
    [.mk .nowhere (.expr (.yield none))]
  obtain ⟨-, hcompile, -⟩ := generator_detection {} none ⟨[], none, none⟩
    [.mk .nowhere (.functionDef "f" ⟨[], none, none⟩ [.mk .nowhere (.expr (.yield none))])]
  refine ⟨⟨_, rfl, (hclassify _ rfl).1⟩, hcompile ?_⟩
  intro b hb hy
  cases hb with
  | self =>
    obtain ⟨p, e, he, -⟩ := hy
    cases he
  | nested hc hd =>
    obtain rfl := List.mem_singleton.mp hc
    cases hd with
    | self => exact ⟨rfl, .yield none, List.mem_singleton.mpr rfl, .here none⟩
    | nested hc _ => cases hc

/-- A `yield` in the object of an attribute that is assigned to belongs to the function, which is
not recognised as a generator for it and has no code. -/
theorem target_yield_unheeded :
    (⟨true, [.mk .nowhere (.assign [.attr (.yield none) "x"] (.int 1))]⟩ : CodeBlock).Yields ∧
    (classifyFunction ⟨[], none, none⟩
      [.mk .nowhere (.assign [.attr (.yield none) "x"] (.int 1))]).map (·.isGenerator) = .ok false ∧
    compile {} none [.mk .nowhere (.functionDef "f" ⟨[], none, none⟩
      [.mk .nowhere (.assign [.attr (.yield none) "x"] (.int 1))])] =
        .error ⟨yieldOutside, none⟩ := by
  refine ⟨⟨.target, .attr (.yield none) "x", ?_, .obj (.here none)⟩, rfl, rfl⟩
  simp [Stmt.expressionsOfBody, Stmt.expressions, StmtKind.expressions, Place.all]

end Goward
