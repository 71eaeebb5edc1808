import Goward.Proofs.LoweringAnswers

/-!
# Statements answer their requests

What holds of expressions, targets and imports is carried on to statements and bodies. Control
structure adds no code of its own, so the answers of its parts are put together. The body of a
definition answers its requests in a longer chain of scopes, and all that the scope around it sees is
the step that makes its code.
-/

namespace Goward

open Goward.Build Goward.Code

theorem ScopeChain.Classified.cons {c : ScopeChain} (h : c.Classified) {kind : ScopeKind}
    (hkind : ∀ f, kind = .function f → f.vars.Distinct) : ScopeChain.Classified (kind :: c) := by
  intro f hf
  rcases List.mem_cons.mp hf with hf | hf
  · exact hkind f hf.symm
  · exact h f hf

/-- The chain of a scope that is entered. -/
theorem ScopeTree.At.push {o : Options} {c : ScopeChain} {id : Nat} {t : ScopeTree}
    (h : t.At o c id) (name : String) {kind : ScopeKind} (hkind : kind ≠ .module)
    (hdistinct : ∀ f, kind = .function f → f.vars.Distinct) :
    (t.push id name kind).2.At o (kind :: c) (t.push id name kind).1 where
  arises := .push name h.arises h.inTree hkind
  inTree := ScopeTree.scope?_push_isSome.mpr (.inr rfl)
  chain := by rw [ScopeTree.chain_push h.arises.rooted h.inTree name hkind, h.chain]
  classified := h.classified.cons hdistinct

namespace Build

open ScopeTree (At)

variable {α β : Type} {cx : Context} {c : ScopeChain} {id : Nat}

/-- In a scope with the given chain, a build that succeeds puts no code down. Its value holds code
that answers requests. -/
def Gathers (cx : Context) (c : ScopeChain) (id : Nat) (r : Registry) (b : Build α)
    (reqs : List Request) (code : α → List Step) : Prop :=
  ∀ t u, t.At cx.options c id → r.Extends t.registry → b.run t = .ok u →
    u.tree.At cx.options c id ∧ u.code = [] ∧
      Answers cx c reqs (code u.value) t.registry u.tree.registry

namespace Gathers

variable {r : Registry} {reqs reqs' reqs'' : List Request}

theorem collect {b : Build α} {V : α → Registry → Prop} (h : Asks cx c id r b reqs V) :
    Gathers cx c id r (Build.collect b) reqs (·.2) := by
  intro t u ht hr hu
  obtain ⟨inner, hi, rfl⟩ := run_collect_ok.mp hu
  obtain ⟨ht', ha, -⟩ := h t inner ht hr hi
  exact ⟨ht', rfl, ha⟩

theorem codeOf {b : Build Unit} {V : Unit → Registry → Prop} (h : Asks cx c id r b reqs V) :
    Gathers cx c id r (Build.codeOf b) reqs fun code => code := by
  intro t u ht hr hu
  obtain ⟨inner, hi, rfl⟩ := run_codeOf_ok.mp hu
  obtain ⟨ht', ha, -⟩ := h t inner ht hr hi
  exact ⟨ht', rfl, ha⟩

/-- There is no other side. -/
theorem none : Gathers cx c id r (pure none) [] fun other : Option (List Step) => other.getD [] := by
  intro t u ht _ hu
  cases hu
  exact ⟨ht, rfl, .nil _⟩

/-- The other side of a branch or a loop. -/
theorem some {b : Build (List Step)} (h : Gathers cx c id r b reqs fun code => code) :
    Gathers cx c id r (do return some (← b)) reqs fun other => other.getD [] := by
  intro t u ht hr hu
  obtain ⟨first, h₁, second, h₂, rfl⟩ := run_bind_ok.mp hu
  cases h₂
  obtain ⟨ht', hcode, ha⟩ := h t first ht hr h₁
  exact ⟨ht', (List.append_nil _).trans hcode, ha⟩

/-- Control structure around three pieces of code, and what comes behind it. -/
theorem assemble {first : Build α} {second : α → Build β}
    {third : Build (Option (List Step))} (step : α → β → Option (List Step) → Step)
    {rest : Build Unit} {code₁ : α → List Step} {code₂ : β → List Step}
    (hfirst : Gathers cx c id r first reqs code₁)
    (hsecond : ∀ a r', r.Extends r' → Gathers cx c id r' (second a) reqs' code₂)
    (hthird : ∀ r', r.Extends r' → Gathers cx c id r' third reqs'' (·.getD []))
    (hflat : ∀ a b other deep, (step a b other).flat deep =
      Step.flatAll deep (code₁ a ++ code₂ b ++ other.getD []))
    (hrest : ∀ r', r.Extends r' → Asks cx c id r' rest [] fun _ _ => True) :
    Asks cx c id r
      (do
        let a ← first
        let b ← second a
        let other ← third
        emit (step a b other)
        rest) (reqs ++ reqs' ++ reqs'') fun _ _ => True := by
  intro t u ht hr hu
  obtain ⟨a, h₁, behind₁, hu₁, rfl⟩ := run_bind_ok.mp hu
  obtain ⟨b, h₂, behind₂, hu₂, rfl⟩ := run_bind_ok.mp hu₁
  obtain ⟨other, h₃, behind₃, hu₃, rfl⟩ := run_bind_ok.mp hu₂
  obtain ⟨emitted, h₄, behind₄, hu₄, rfl⟩ := run_bind_ok.mp hu₃
  cases h₄
  obtain ⟨ht₁, hcode₁, ha⟩ := hfirst t a ht hr h₁
  obtain ⟨ht₂, hcode₂, hb⟩ := hsecond a.value _ (hr.trans ha.grows) a.tree b ht₁ (.refl _) h₂
  obtain ⟨ht₃, hcode₃, hc⟩ := hthird _ ((hr.trans ha.grows).trans hb.grows) b.tree other ht₂
    (.refl _) h₃
  have hcode : Answers cx c _ [step a.value b.value other.value] t.registry other.tree.registry :=
    ((ha.append hb).append hc).control fun deep => by rw [Step.flatAll_single, hflat]
  obtain ⟨ht₄, hd, -⟩ := hrest _ ((hr.trans ha.grows).trans (hb.grows.trans hc.grows)) other.tree
    behind₄ ht₃ (.refl _) hu₄
  have hanswers := hcode.append hd
  rw [List.append_nil] at hanswers
  refine ⟨ht₄, ?_, trivial⟩
  show Answers cx c _ (a.code ++ (b.code ++ (other.code ++ ([_] ++ behind₄.code)))) _ _
  rw [hcode₁, hcode₂, hcode₃]
  exact hanswers

end Gathers

/-- A definition, whose body is entered by a push of a scope. -/
theorem definition_asks {r : Registry} (name : String) (kind : ScopeKind)
    (hkind : kind ≠ .module) (hdistinct : ∀ f, kind = .function f → f.vars.Distinct)
    {returnsNone : Bool} {body : List Stmt} {reqs qs : List Request}
    (hbody : ∀ inner r', Asks cx (kind :: c) inner r' (lowerBody cx inner false body) reqs
      fun _ _ => True)
    {rest : List Step → List Temp → Build Unit}
    (hrest : ∀ steps temps r', r.Extends r' →
      (∀ r'', r'.Extends r'' → Answers cx (kind :: c) reqs steps r'' r'') →
      Asks cx c id r' (rest steps temps) (.enter kind reqs :: qs) fun _ _ => True) :
    Asks cx c id r
      (do
        let inner ← onTree (·.push id name kind)
        let steps ← bodyWithEnd returnsNone (lowerBody cx inner false body)
        let temps ← declaredTemps inner
        rest steps temps) (.enter kind reqs :: qs) fun _ _ => True := by
  intro t u ht hr hu
  obtain ⟨inner, h₁, behind₁, hu₁, rfl⟩ := run_bind_ok.mp hu
  cases h₁
  obtain ⟨steps, h₂, behind₂, hu₂, rfl⟩ := run_bind_ok.mp hu₁
  obtain ⟨temps, h₃, behind₃, hu₃, rfl⟩ := run_bind_ok.mp hu₂
  cases h₃
  have hend : Asks cx (kind :: c) (t.push id name kind).1 t.registry
      (do
        lowerBody cx (t.push id name kind).1 false body
        emit (.ret (if returnsNone then some .noneObject else none))) reqs fun _ _ => True :=
    (hbody _ _).andThen fun _ _ _ _ =>
      .emit (fun _ => rfl) rfl rfl (by cases returnsNone <;> exact nofun)
  obtain ⟨hinner, hcode, ha⟩ := Gathers.codeOf hend _ steps (ht.push name hkind hdistinct) (.refl _) h₂
  have hgrows : t.GrowsTo steps.tree := (ScopeTree.GrowsTo.push t id name kind).trans
    (bodyWithEnd_keeps ScopeTree.growsTo_treeRelation _
      (lowerBody_keeps ScopeTree.growsTo_treeRelation cx _ false body) _ steps h₂)
  obtain ⟨ht', hb, -⟩ := hrest steps.value _ steps.tree.registry (hr.trans ha.grows)
    (fun r'' hr'' => ha.settled hr'') steps.tree behind₃ (ht.grow hgrows hinner.arises) (.refl _) hu₃
  refine ⟨ht', ?_, trivial⟩
  show Answers cx c _ ([] ++ (steps.code ++ ([] ++ behind₃.code))) t.registry _
  rw [hcode]
  exact hb.prepaid ha.strings fun p => by
    rw [Request.packagesOfAll_enter]
    exact ha.imports p

/-- The step that makes the code of a function. -/
theorem emitFunction_asks {r : Registry} {f : FunctionVars} {reqs : List Request} {dst : Temp}
    {header : FunctionHeader} (hslots : header.slots = f.vars.slots) (hf : f.vars.Distinct)
    {temps : List Temp} {steps : List Step}
    (h : ∀ r', r.Extends r' → Answers cx (.function f :: c) reqs steps r' r') :
    Asks cx c id r (emit (.function dst header temps steps)) [.enter (.function f) reqs]
      fun _ _ => True := by
  intro t u ht hr hu
  cases hu
  have hclassified : ScopeChain.Classified (.function f :: c) :=
    ht.classified.cons fun _ h => ScopeKind.function.inj h ▸ hf
  have hresolves := (h _ hr).resolves hclassified
  refine ⟨ht, (h _ hr).enter (fun _ => rfl) rfl rfl rfl (.function hslots ?_ .nil), trivial⟩
  rw [hslots]
  exact hresolves

/-- The step that makes the code of a class body. -/
theorem emitClassBody_asks {r : Registry} {globals : List String} {reqs : List Request}
    {dst names : Temp} {name : String} {temps : List Temp} {steps : List Step}
    (h : ∀ r', r.Extends r' → Answers cx (.classBody globals :: c) reqs steps r' r') :
    Asks cx c id r (emit (.classBody dst name names temps steps))
      [.enter (.classBody globals) reqs] fun _ _ => True := by
  intro t u ht hr hu
  cases hu
  have hclassified : ScopeChain.Classified (.classBody globals :: c) := ht.classified.cons nofun
  exact ⟨ht, (h _ hr).enter (fun _ => rfl) rfl rfl rfl
    (.classBody ((h _ hr).resolves hclassified) .nil), trivial⟩

theorem defineFunction_asks {r : Registry} (name : String) (params : Parameters)
    {f : FunctionVars} (hf : f.vars.Distinct) {body : List Stmt} {reqs : List Request}
    (hbody : ∀ inner r', Asks cx (.function f :: c) inner r' (lowerBody cx inner false body) reqs
      fun _ _ => True) :
    Asks cx c id r (defineFunction id name params f fun inner => lowerBody cx inner false body)
      [.enter (.function f) reqs, .store name] fun _ _ => True := by
  refine definition_asks name (.function f) nofun (fun _ h => ScopeKind.function.inj h ▸ hf) hbody
    fun steps temps r' _ h => ?_
  exact (Asks.acquire _).after fun fn _ hr _ =>
    (emitFunction_asks rfl hf fun _ hr' => h _ (hr.trans hr')).bind (q := [.store name])
      fun _ _ _ _ => (Asks.storeName name fun _ hm => absurd hm List.not_mem_nil).andThen
        fun _ _ _ _ => .release fn

theorem enterClass_asks {r : Registry} (name : String) (vars : VarMap)
    {body : List Stmt} {reqs : List Request}
    (hbody : ∀ inner r', Asks cx (.classBody vars.globals :: c) inner r'
      (lowerBody cx inner false body) reqs fun _ _ => True) (tuple names : Temp) :
    Asks cx c id r
      (do
        let inner ← onTree (·.pushClass id name vars)
        let steps ← bodyWithEnd false (lowerBody cx inner false body)
        let temps ← declaredTemps inner
        let code ← acquire id "*πg.Code"
        emit (.classBody code name names temps steps)
        act (.discard (.evalCode code))
        let key ← intern name
        let cls ← callInto id Temp.objectType (.newClass key tuple names)
        storeName id name (.temp cls)
        releaseAll id [.temp cls, .temp code, .temp names, .temp tuple])
      [.enter (.classBody vars.globals) reqs, .text name, .store name] fun _ _ => True := by
  refine definition_asks name (.classBody vars.globals) nofun nofun hbody fun steps temps r' _ h => ?_
  exact (Asks.acquire _).after fun code _ hr _ =>
    (emitClassBody_asks fun _ hr' => h _ (hr.trans hr')).bind (q := [.text name, .store name])
      fun _ _ _ _ => (Asks.act rfl fun _ hm => absurd hm List.not_mem_nil).after fun _ _ _ _ =>
    (Asks.intern name).bind (q := [.store name]) fun key _ _ hkey =>
    (Asks.callInto rfl fun m hm => List.mem_singleton.mp hm ▸ hkey).after fun cls _ _ _ =>
    (Asks.storeName name fun _ hm => absurd hm List.not_mem_nil).andThen
      fun _ _ _ _ => .releaseAll _

theorem defineClass_asks {r : Registry} (name : String) (bases : List Expr)
    (vars : VarMap) {body : List Stmt} {reqs : List Request}
    (hbody : ∀ inner r', Asks cx (.classBody vars.globals :: c) inner r'
      (lowerBody cx inner false body) reqs fun _ _ => True) :
    Asks cx c id r (defineClass cx id name bases vars fun inner => lowerBody cx inner false body)
      (Expr.requestsOfAll bases ++ [.text cx.options.moduleName] ++
        [.enter (.classBody vars.globals) reqs] ++ [.text name, .store name]) fun _ _ => True := by
  rw [List.append_assoc, List.append_assoc]
  exact (lowerExprs_asks bases).bind fun vs _ _ hvs => (Asks.acquire _).after fun tuple _ hr _ =>
    (Asks.act (a := .construct tuple (.tuple vs)) rfl
      (fits_flatMap fun v hv => hr.fits (hvs v hv))).after fun _ _ _ _ =>
    (Asks.releaseAll vs).after fun _ _ _ _ => (Asks.acquire _).after fun names _ _ _ =>
    (Asks.act rfl fun _ hm => absurd hm List.not_mem_nil).after fun _ _ _ _ =>
    (Asks.intern _).bind fun module _ _ hmodule =>
    (Asks.act rfl fun m hm => List.mem_singleton.mp hm ▸ hmodule).after fun _ _ _ _ =>
    enterClass_asks name vars hbody tuple names

/-! ### Pieces of statements -/

theorem annotate_asks (r : Registry) (span : Span) :
    Asks cx c id r (annotate cx span) [] fun _ _ => True := by
  unfold annotate
  split
  · exact .pure fun _ _ => trivial
  · next source hsource =>
    split
    · exact .pure fun _ _ => trivial
    · exact .act rfl fun m hm => List.mem_singleton.mp hm ▸ ⟨trivial, source, hsource, _, rfl⟩

theorem lowerTest_asks {r : Registry} (test : Expr) :
    Asks cx c id r (lowerTest id test) test.requests fun _ _ => True :=
  (lowerExpr_asks test).andThen fun v _ _ hv =>
    (Asks.callInto (k := .isTrue v) rfl hv).after fun _ _ _ _ => .pure fun _ _ => trivial

theorem releaseTest_asks {r : Registry} (tested : Value × Temp) :
    Asks cx c id r (releaseTest id tested) [] fun _ _ => True :=
  (Asks.releaseValue _).after fun _ _ _ _ => .release _

theorem updateName_asks {r : Registry} (x : String) (op : BinOp) (value : Expr) :
    Asks cx c id r (updateName id x op value) (.read x :: (value.requests ++ [.store x]))
      fun _ _ => True :=
  (Asks.readName x).bind fun _ _ _ hl => (lowerExpr_asks value).bind fun _ _ hr hv =>
    (Asks.callInto rfl fun m hm => (List.mem_append.mp hm).elim (hr.fits hl m) (hv m)).after
      fun result _ _ _ => (Asks.releaseAll _).after fun _ _ _ _ =>
    (Asks.storeName x fun _ hm => absurd hm List.not_mem_nil).andThen fun _ _ _ _ => .release result

/-- What a `return` asks for. -/
theorem lowerReturn_asks {r : Registry} (value : Option Expr) :
    Asks cx c id r (lowerReturn id value) ((value.map Expr.requests).getD []) fun _ _ => True := by
  refine .ofTree fun t _ => ?_
  split
  · exact .fail _
  · split
    · exact .emit (fun _ => rfl) rfl rfl fun _ hm => absurd hm List.not_mem_nil
    · exact .fail _
    · exact .emit (fun _ => rfl) rfl rfl fun _ hm => absurd hm List.not_mem_nil
    · exact (lowerExpr_asks _).andThen fun v _ _ hv =>
        (Asks.emit (s := .ret (some v)) (fun _ => rfl) rfl rfl hv).after fun _ _ _ _ =>
          .releaseValue v

/-- A branch or a `while` loop. -/
theorem tested_asks {r : Registry}
    (step : List Step → Temp → List Step → Option (List Step) → Step)
    (hflat : ∀ check cond body other deep, (step check cond body other).flat deep =
      Step.flatAll deep (check ++ body ++ other.getD []))
    (test : Expr) {reqs reqs' : List Request} {body : Value × Temp → Build Unit}
    {orelse : Build (Option (List Step))}
    (hbody : ∀ tested r', Asks cx c id r' (body tested) reqs fun _ _ => True)
    (helse : ∀ r', Gathers cx c id r' orelse reqs' (·.getD [])) :
    Asks cx c id r
      (do
        let (tested, check) ← collect (lowerTest id test)
        let steps ← codeOf (body tested)
        let other ← orelse
        emit (step check tested.2 steps other)) (test.requests ++ reqs ++ reqs')
      fun _ _ => True :=
  Gathers.assemble (fun tested steps other => step tested.2 tested.1.2 steps other)
    (.collect (lowerTest_asks test)) (fun tested r' _ => .codeOf (hbody tested.1 r'))
    (fun r' _ => helse r') (fun _ _ _ _ => hflat _ _ _ _ _) (fun _ _ => .pure fun _ _ => trivial)

end Build

open Build

variable {cx : Context}

mutual

theorem lowerStmt_asks (c : ScopeChain) (id : Nat) (r : Registry)
    (inLoop : Bool) : (s : Stmt) →
    Asks cx c id r (lowerStmt cx id inLoop s) (s.requests cx.options.moduleName)
      fun _ _ => True
  | .mk span kind =>
    (annotate_asks r span).after fun _ _ _ _ =>
      .locate span (lowerKind_asks c id _ inLoop kind)

theorem lowerKind_asks (c : ScopeChain) (id : Nat) (r : Registry)
    (inLoop : Bool) : (k : StmtKind) →
    Asks cx c id r (lowerKind cx id inLoop k) (k.requests cx.options.moduleName)
      fun _ _ => True
  | .assign targets value =>
    (lowerExpr_asks value).bind fun v _ _ hv => (storeIntoAll_asks hv targets).andThen
      fun _ _ _ _ => .releaseValue v
  | .augAssign (.name x) op value => updateName_asks x op value
  | .augAssign (.str _) _ _ | .augAssign (.int _) _ _ | .augAssign (.tuple _) _ _
  | .augAssign (.list _) _ _ | .augAssign (.attr _ _) _ _ | .augAssign (.call _ _) _ _
  | .augAssign (.binop _ _ _) _ _ | .augAssign (.yield _) _ _ => .fail _
  | .delete targets => deleteAll_asks targets
  | .global _ => .pure fun _ _ => trivial
  | .imports names => importModules_asks names
  | .importsFrom path names level => importFrom_asks path names level
  | .functionDef name params body => by
    refine (Asks.lift _).after fun f _ _ hf => ?_
    have hbody (inner : Nat) (r' : Registry) := lowerBody_asks (.function f :: c) inner r' false
      body
    rw [StmtKind.requests, hf]
    exact defineFunction_asks name params (classifyFunction_distinct hf) hbody
  | .classDef name bases body => by
    refine (Asks.lift _).after fun vars _ _ hvars => ?_
    have hbody (inner : Nat) (r' : Registry) :=
      lowerBody_asks (.classBody vars.globals :: c) inner r' false body
    rw [StmtKind.requests, hvars]
    exact defineClass_asks name bases vars hbody
  | .forEach target iter body orelse => by
    rw [StmtKind.requests, List.append_assoc, List.append_assoc]
    refine (lowerExpr_asks iter).bind fun v _ _ hv =>
      (Asks.callInto (k := .iter v) rfl hv).after fun iterator _ _ _ =>
      (Asks.releaseValue v).after fun _ _ _ _ => (Asks.acquire _).after fun item _ _ _ => ?_
    rw [← List.append_assoc]
    exact Gathers.assemble (.forLoop iterator item)
      (.codeOf ((storeInto_asks (fun _ hm => absurd hm List.not_mem_nil) target).andThen
        fun _ _ _ _ => .release item))
      (fun _ _ _ => .codeOf (lowerBody_asks c id _ true body))
      (fun _ _ => lowerElse_asks c id _ inLoop orelse)
      (fun bind body other deep => by cases other <;> simp [Step.flat]) (fun _ _ => .release iterator)
  | .whileLoop test body orelse =>
    tested_asks .whileLoop
      (fun check cond body other deep => by cases other <;> simp [Step.flat]) test
      (fun tested _ => (releaseTest_asks tested).after fun _ _ _ _ =>
        lowerBody_asks c id _ true body)
      fun _ => lowerElse_asks c id _ inLoop orelse
  | .branch test body orelse =>
    tested_asks .branch
      (fun check cond body other deep => by cases other <;> simp [Step.flat]) test
      (fun tested _ => (releaseTest_asks tested).after fun _ _ _ _ =>
        lowerBody_asks c id _ inLoop body)
      fun _ => lowerElse_asks c id _ inLoop orelse
  | .withItems _ _ | .tryExcept _ _ _ _ => .fail _
  | .ret none => lowerReturn_asks none
  | .ret (some value) => lowerReturn_asks (some value)
  | .expr value => (lowerExpr_asks value).andThen fun v _ _ _ => .releaseValue v
  | .breakLoop | .continueLoop => by
    unfold lowerKind
    cases inLoop with
    | true => exact .emit (fun _ => rfl) rfl rfl fun _ hm => absurd hm List.not_mem_nil
    | false => exact .fail _
  | .pass => .pure fun _ _ => trivial

theorem lowerElse_asks (c : ScopeChain) (id : Nat) (r : Registry)
    (inLoop : Bool) : (body : List Stmt) →
    Gathers cx c id r (lowerElse cx id inLoop body)
      (Stmt.requestsOfBody cx.options.moduleName body) (·.getD [])
  | [] => .none
  | s :: rest => .some (.codeOf ((lowerStmt_asks c id r inLoop s).bind fun _ _ _ _ =>
      lowerBody_asks c id _ inLoop rest))

theorem lowerBody_asks (c : ScopeChain) (id : Nat) (r : Registry)
    (inLoop : Bool) : (body : List Stmt) →
    Asks cx c id r (lowerBody cx id inLoop body)
      (Stmt.requestsOfBody cx.options.moduleName body) fun _ _ => True
  | [] => .pure fun _ _ => trivial
  | s :: rest => (lowerStmt_asks c id r inLoop s).bind fun _ _ _ _ =>
      lowerBody_asks c id _ inLoop rest

end

end Goward
