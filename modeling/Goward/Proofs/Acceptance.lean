import Goward.Proofs.Constructs
import Goward.Proofs.Generators
import Goward.Proofs.LoweringLeases
import Goward.Proofs.Storing

/-!
# Which modules are accepted

A build checks the constructs that it is made from, in the order in which it generates code for
them: if it succeeds none of them has a fault, and if it fails it is with the fault of the first
one. There are failures besides, for a name without a place and for a scratch variable that is not
in use, but no module runs into them. Main result: a module compiles exactly if none of its
constructs has a fault, and otherwise the first fault is reported.
-/

namespace Goward

open Goward.Build Goward.Code
open ScopeTree (growsTo_treeRelation)

/-- A cause that is no construct's fault. -/
def Cause.Internal : Cause → Prop
  | .unclassifiedName _ | .tempNotInUse _ => True
  | .duplicateArgument _ | .parameterAndGlobal _ | .usedPriorToGlobal _ | .deleteNonexistentLocal _
  | .returnOutsideFunction | .loopControlOutsideLoop _ | .unsupported _ => False

/-- A build that lets the tree grow and never fails because of a construct. -/
structure Routine {α : Type} (b : Build α) : Prop where
  grows : Keeps ScopeTree.GrowsTo b
  internal : ∀ t e, b.run t = .error e → e.cause.Internal

theorem Routine.emit (s : Step) : Routine (Build.emit s) := ⟨.emit growsTo_treeRelation s, nofun⟩

theorem routine : ActionProperty Routine where
  pure a := ⟨.pure growsTo_treeRelation a, nofun⟩
  bind hb hf := by
    refine ⟨.bind growsTo_treeRelation hb.grows fun a => (hf a).grows, fun t e h => ?_⟩
    rcases run_bind_error.mp h with h | ⟨first, -, h⟩
    · exact hb.internal t e h
    · exact (hf first.value).internal first.tree e h
  tree := ⟨.tree growsTo_treeRelation, nofun⟩
  act a := .emit (.action a)
  alloc id type := ⟨growsTo_treeRelation.keeps.alloc id type, nofun⟩
  free id v := by
    refine ⟨growsTo_treeRelation.keeps.free id v, fun t e h => ?_⟩
    rw [(run_free_error h).1]
    trivial
  intern s := ⟨growsTo_treeRelation.keeps.intern s, nofun⟩
  addImport path := ⟨growsTo_treeRelation.keeps.addImport path, nofun⟩
  addNative path := ⟨growsTo_treeRelation.keeps.addNative path, nofun⟩

/-- A store fails only for want of a place. -/
theorem Routine.storeName (id : Nat) (x : String) (v : Value) :
    Routine (Build.storeName id x v) := by
  refine routine.bind routine.tree fun t => ?_
  split
  · refine ⟨.fail _, fun t e h => ?_⟩
    cases h
    trivial
  · exact routine.bind (routine.intern x) fun _ => routine.act _
  · exact routine.bind (routine.intern x) fun _ => routine.act _
  · exact routine.act _

theorem Build.run_locate_leaving {α : Type} {span : Span} {b : Build α} {t : ScopeTree} {e : Error}
    (h : (Build.locate span b).run t = .error e) :
    ∃ e', b.run t = .error e' ∧ e = e'.leaving span := by
  simp only [run, Build.locate, Error.leaving] at h ⊢
  by_cases hspan : span.isEmpty
  · rw [if_pos hspan] at h
    exact ⟨e, h, (if_pos hspan).symm⟩
  · rw [if_neg hspan] at h
    cases hb : b t with
    | ok r =>
      rw [hb] at h
      cases h
    | error e' =>
      rw [hb] at h
      cases h
      exact ⟨e', rfl, (if_neg hspan).symm⟩

/-- A tree in which a scope of the given kind has the number. -/
def ScopeTree.HasKind (t : ScopeTree) (id : Nat) (kind : ScopeKind) : Prop :=
  ∃ s, t.scope? id = some s ∧ s.kind = kind

namespace ScopeTree.HasKind

variable {t u : ScopeTree} {id : Nat} {kind : ScopeKind}

theorem grows (h : t.HasKind id kind) (hg : t.GrowsTo u) : u.HasKind id kind := by
  obtain ⟨s, hs, hkind⟩ := h
  obtain ⟨s', hs', hkind', -⟩ := hg id s hs
  exact ⟨s', hs', hkind'.trans hkind⟩

theorem inScope (h : t.HasKind id kind) : InScope id kind.isGenerator t := by
  obtain ⟨s, hs, rfl⟩ := h
  refine ⟨s, hs, ?_⟩
  rw [Scope.isGenerator, Scope.function?]
  cases s.kind <;> rfl

end ScopeTree.HasKind

/-- A build that checks constructs in a scope of the given kind. -/
structure Checks {α : Type} (id : Nat) (kind : ScopeKind) (b : Build α) (sites : List Site) :
    Prop where
  grows : Keeps ScopeTree.GrowsTo b
  /-- Where it succeeds, none of them has a fault. -/
  of_ok : ∀ t r, t.HasKind id kind → b.run t = .ok r → Site.first? sites = none
  /-- It fails with the first fault. -/
  of_error : ∀ t e, t.HasKind id kind → b.run t = .error e →
    Site.first? sites = some e ∨ e.cause.Internal

namespace Checks

variable {α β : Type} {id : Nat} {kind : ScopeKind} {sites sites' : List Site} {s : Site}

theorem routine {b : Build α} (h : Routine b) : Checks id kind b [] where
  grows := h.grows
  of_ok _ _ _ _ := rfl
  of_error t e _ he := .inr (h.internal t e he)

theorem bind {b : Build α} {f : α → Build β} (hb : Checks id kind b sites)
    (hf : ∀ a, Checks id kind (f a) sites') : Checks id kind (b >>= f) (sites ++ sites') where
  grows := .bind growsTo_treeRelation hb.grows fun a => (hf a).grows
  of_ok t r ht h := by
    obtain ⟨first, h₁, second, h₂, -⟩ := run_bind_ok.mp h
    rw [Site.first?_append, hb.of_ok t first ht h₁, Option.none_or]
    exact (hf first.value).of_ok first.tree second (ht.grows (hb.grows t first h₁)) h₂
  of_error t e ht h := by
    rw [Site.first?_append]
    rcases run_bind_error.mp h with h | ⟨first, h₁, h₂⟩
    · refine (hb.of_error t e ht h).imp_left fun hfirst => ?_
      rw [hfirst, Option.some_or]
    · rw [hb.of_ok t first ht h₁, Option.none_or]
      exact (hf first.value).of_error first.tree e (ht.grows (hb.grows t first h₁)) h₂

theorem andThen {b : Build α} {f : α → Build β} (hb : Checks id kind b sites)
    (hf : ∀ a, Routine (f a)) : Checks id kind (b >>= f) sites := by
  have hrest (a : α) : Checks id kind (f a) [] := routine (hf a)
  have h := hb.bind hrest
  rwa [List.append_nil] at h

theorem after {b : Build α} {f : α → Build β} (hb : Routine b)
    (hf : ∀ a, Checks id kind (f a) sites) : Checks id kind (b >>= f) sites := (routine hb).bind hf

/-- What comes behind a fault is not reached. -/
theorem stops {b : Build α} {f : α → Build β} {e : Error} (hb : Checks id kind b sites)
    (he : Site.first? sites = some e) (hk : Keeps ScopeTree.GrowsTo (b >>= f)) :
    Checks id kind (b >>= f) sites where
  grows := hk
  of_ok t r ht h := by
    obtain ⟨first, h₁, -⟩ := run_bind_ok.mp h
    exact hb.of_ok t first ht h₁
  of_error t e' ht h := by
    rcases run_bind_error.mp h with h | ⟨first, h₁, -⟩
    · exact hb.of_error t e' ht h
    · have hnone := hb.of_ok t first ht h₁
      rw [he] at hnone
      cases hnone

theorem fail {c : Cause} (h : s.fault? = some { cause := c }) :
    Checks id kind (Build.fail c : Build α) (s :: sites) where
  grows := .fail c
  of_ok _ _ _ hr := nomatch hr
  of_error t e _ he := by
    cases he
    exact .inl (Site.first?_cons_of_some h)

theorem require {b : Bool} {c : Cause}
    (h : s.fault? = if b then none else some { cause := c }) :
    Checks id kind (Build.require b c) [s] := by
  cases b with
  | false => exact fail h
  | true =>
    exact ⟨.require growsTo_treeRelation true c, fun _ _ _ _ => Site.first?_cons_of_none h,
      fun _ _ _ => nofun⟩

/-- A construct without a fault need not be checked. -/
theorem skip {b : Build α} (h : Checks id kind b sites) (hs : s.fault? = none) :
    Checks id kind b (s :: sites) := by
  have hfirst : Site.first? (s :: sites) = Site.first? sites := Site.first?_cons_of_none hs
  exact ⟨h.grows, hfirst ▸ h.of_ok, hfirst ▸ h.of_error⟩

theorem collect {b : Build α} (h : Checks id kind b sites) :
    Checks id kind (Build.collect b) sites where
  grows := .collect h.grows
  of_ok t r ht hr := by
    obtain ⟨inner, hi, -⟩ := run_collect_ok.mp hr
    exact h.of_ok t inner ht hi
  of_error t e ht he := h.of_error t e ht (run_collect_error.mp he)

theorem codeOf {b : Build Unit} (h : Checks id kind b sites) :
    Checks id kind (Build.codeOf b) sites where
  grows := .codeOf h.grows
  of_ok t r ht hr := by
    obtain ⟨inner, hi, -⟩ := run_codeOf_ok.mp hr
    exact h.of_ok t inner ht hi
  of_error t e ht he := h.of_error t e ht (run_codeOf_error.mp he)

theorem bodyWithEnd {b : Build Unit} (returnsNone : Bool) (h : Checks id kind b sites) :
    Checks id kind (Build.bodyWithEnd returnsNone b) sites := (h.andThen fun _ => .emit _).codeOf

/-- A statement gives the errors in it their place. -/
theorem locate {b : Build α} (span : Span) (h : Checks id kind b sites) :
    Checks id kind (Build.locate span b) (sites.map (·.within span)) where
  grows := .locate h.grows
  of_ok t r ht hr := by
    rw [Site.first?_within, h.of_ok t r ht (run_locate_ok.mp hr)]
    rfl
  of_error t e ht he := by
    obtain ⟨e', he', rfl⟩ := run_locate_leaving he
    rw [Site.first?_within, Error.leaving_cause]
    refine (h.of_error t e' ht he').imp_left fun hfirst => ?_
    rw [hfirst]
    rfl

/-- What depends on the tree may rely on the kind of the scope. -/
theorem ofTree {f : ScopeTree → Build α} (hk : Keeps ScopeTree.GrowsTo (Build.tree >>= f))
    (hf : ∀ t, t.HasKind id kind → Checks id kind (f t) sites) :
    Checks id kind (Build.tree >>= f) sites where
  grows := hk
  of_ok t r ht h := by
    obtain ⟨first, h₁, second, h₂, -⟩ := run_bind_ok.mp h
    cases h₁
    exact (hf t ht).of_ok t second ht h₂
  of_error t e ht h := by
    rcases run_bind_error.mp h with h | ⟨first, h₁, h₂⟩
    · cases h
    · cases h₁
      exact (hf t ht).of_error t e ht h₂

/-- A computation that fails with the fault of a construct. -/
theorem lift {x : Except Error α} {f : α → Build β} (hs : s.fault? = errorOf? x)
    (hk : ∀ a, Keeps ScopeTree.GrowsTo (f a)) (hf : ∀ a, x = .ok a → Checks id kind (f a) sites) :
    Checks id kind (Build.lift x >>= f) (s :: sites) where
  grows := .bind growsTo_treeRelation (.lift growsTo_treeRelation x) hk
  of_ok t r ht h := by
    obtain ⟨first, h₁, second, h₂, -⟩ := run_bind_ok.mp h
    obtain ⟨a, rfl, rfl⟩ := run_lift_ok.mp h₁
    exact ((hf a rfl).skip hs).of_ok t second ht h₂
  of_error t e ht h := by
    rcases run_bind_error.mp h with h | ⟨first, h₁, h₂⟩
    · obtain rfl := run_lift_error.mp h
      exact .inl (Site.first?_cons_of_some hs)
    · obtain ⟨a, rfl, rfl⟩ := run_lift_ok.mp h₁
      exact ((hf a rfl).skip hs).of_error t e ht h₂

/-- What is built in a scope that is entered is checked in that scope. -/
theorem enter {f : Nat → Build α} {name : String} {inner : ScopeKind}
    (hf : ∀ i, Checks i inner (f i) sites) :
    Checks id kind (Build.onTree (·.push id name inner) >>= f) sites where
  grows := .bind growsTo_treeRelation (.onTree fun t => growsTo_treeRelation.push t id name inner)
    fun i => (hf i).grows
  of_ok t r _ h := by
    obtain ⟨first, h₁, second, h₂, -⟩ := run_bind_ok.mp h
    cases h₁
    exact (hf _).of_ok _ second (t.scope?_push id name inner) h₂
  of_error t e _ h := by
    rcases run_bind_error.mp h with h | ⟨first, h₁, h₂⟩
    · cases h
    · cases h₁
      exact (hf _).of_error _ e (t.scope?_push id name inner) h₂

end Checks

/-! ### Expressions -/

/-- A build that fails at a `yield` or not because of a construct. -/
def YieldsOnly {α : Type} (b : Build α) : Prop :=
  ∀ t e, b.run t = .error e → e = { cause := yieldOutside } ∨ e.cause.Internal

theorem Routine.yieldsOnly {α : Type} {b : Build α} (h : Routine b) : YieldsOnly b :=
  fun t e he => .inr (h.internal t e he)

theorem yieldsOnly : SuspendProperty YieldsOnly where
  pure a := (routine.pure a).yieldsOnly
  bind hb hf := by
    intro t e h
    rcases run_bind_error.mp h with h | ⟨first, -, h⟩
    · exact hb t e h
    · exact hf first.value first.tree e h
  tree := routine.tree.yieldsOnly
  act a := (routine.act a).yieldsOnly
  alloc id type := (routine.alloc id type).yieldsOnly
  free id v := (routine.free id v).yieldsOnly
  intern s := (routine.intern s).yieldsOnly
  addImport path := (routine.addImport path).yieldsOnly
  addNative path := (routine.addNative path).yieldsOnly
  requireGenerator id := by
    intro t e h
    rcases run_bind_error.mp h with h | ⟨first, h₁, h₂⟩
    · cases h
    · cases h₁
      unfold require at h₂
      split at h₂
      · cases h₂
      · cases h₂
        exact .inl rfl
  emitSuspend v := (Routine.emit (.suspend v)).yieldsOnly

variable {id : Nat} {around : Surroundings}

theorem Surroundings.first?_evaluations (es : List Expr) :
    Site.first? (around.evaluations es) =
      if Expr.anyYields es && !around.scope.isGenerator then some { cause := yieldOutside }
      else none := by
  induction es with
  | nil => rfl
  | cons e rest ih =>
    rw [evaluations, List.map_cons, Site.first?, List.findSome?_cons, Site.fault?_site,
      Construct.fault?, Expr.anyYields, ← evaluations, ← Site.first?, ih]
    cases e.yields <;> cases around.scope.isGenerator <;> simp

/-- A build that fails exactly at the `yield` of some expressions checks them. -/
theorem Checks.evaluations {α : Type} {b : Build α} {es : List Expr} (hb : YieldsOnly b)
    (h : Judged id around.scope.isGenerator b
      (around.scope.isGenerator = false ∧ ∃ e ∈ es, e.HasYield)) :
    Checks id around.scope b (around.evaluations es) where
  grows := h.keeps
  of_ok t r ht hr := by
    have hnone := h.not_of_ok t r ht.inScope hr
    rw [← Expr.anyYields_iff] at hnone
    rw [around.first?_evaluations, if_neg]
    simpa [and_comm] using hnone
  of_error t e ht he := by
    rcases hb t e he with rfl | hinternal
    · have hfault := h.of_error t _ ht.inScope he rfl
      rw [← Expr.anyYields_iff] at hfault
      rw [around.first?_evaluations, hfault.1, hfault.2]
      exact .inl rfl
    · exact .inr hinternal

theorem lowerExpr_checks (e : Expr) :
    Checks id around.scope (lowerExpr id e) (around.evaluations [e]) :=
  .evaluations (yieldsOnly.lowerExpr id e) ((lowerExpr_judged e).congr (by simp))

theorem lowerExprs_checks (es : List Expr) :
    Checks id around.scope (lowerExprs id es) (around.evaluations es) :=
  .evaluations (yieldsOnly.lowerExprs id es) (lowerExprs_judged es)

theorem lowerTest_checks (test : Expr) :
    Checks id around.scope (lowerTest id test) (around.evaluations [test]) :=
  (lowerExpr_checks test).andThen fun _ => routine.bind (routine.callInto id _ _) fun _ =>
    routine.pure _

theorem unpack_checks (v : Value) (n : Nat) {store : Temp → Build Unit} {sites : List Site}
    (hs : ∀ items, Checks id around.scope (store items) sites) :
    Checks id around.scope (unpack id v n store) sites :=
  .after (routine.acquire id _) fun items => .after (routine.act _) fun _ =>
    .after (routine.act _) fun _ => (hs items).andThen fun _ => routine.release id items

theorem Surroundings.storesAll_cons (e : Expr) (rest : List Expr) :
    around.storesAll (e :: rest) = around.stores e ++ around.storesAll rest := by
  rw [storesAll, Expr.leavesOfAll, List.flatMap_append, stores, storesAll]

/-- A target that cannot be taken apart is its only leaf. -/
theorem Surroundings.stores_leaf {e : Expr} (h : e.leaves = [e]) :
    around.stores e = around.storesLeaf e := by
  rw [stores, h, List.flatMap_singleton]

theorem fail_checks_store {e : Expr} (h : e.leaves = [e])
    (hfault : (Construct.storing e).fault? around =
      some { cause := .unsupported "assignment to this target" }) :
    Checks id around.scope (fail (.unsupported "assignment to this target") : Build Unit)
      (around.stores e) := by
  rw [around.stores_leaf h]
  exact .fail ((Site.fault?_site around _).trans hfault)

mutual

theorem storeInto_checks (v : Value) : (e : Expr) →
    Checks id around.scope (storeInto id v e) (around.stores e)
  | .name x => by
    rw [around.stores_leaf rfl]
    exact (Checks.routine (.storeName id x v)).skip (Site.fault?_site around _)
  | .attr obj name => by
    rw [around.stores_leaf rfl]
    refine Checks.skip ((lowerExpr_checks obj).andThen fun o => ?_) (Site.fault?_site around _)
    exact routine.bind (routine.intern name) fun _ => routine.bind (routine.act _) fun _ =>
      routine.releaseValue id o
  | .tuple elts => unpack_checks v elts.length fun items => storeItems_checks items 0 elts
  | .list elts => unpack_checks v elts.length fun items => storeItems_checks items 0 elts
  | .str _ | .int _ | .call _ _ | .binop _ _ _ | .yield _ => fail_checks_store rfl rfl

theorem storeItems_checks (items : Temp) : (index : Nat) → (es : List Expr) →
    Checks id around.scope (storeItems id items index es) (around.storesAll es)
  | _, [] => .routine (routine.pure ())
  | index, e :: rest => by
    rw [around.storesAll_cons]
    exact (storeInto_checks (.item items index) e).bind fun _ =>
      storeItems_checks items (index + 1) rest

end

theorem storeIntoAll_checks (v : Value) (es : List Expr) :
    Checks id around.scope (storeIntoAll id v es) (around.storesAll es) := by
  induction es with
  | nil => exact .routine (routine.pure ())
  | cons e rest ih =>
    rw [around.storesAll_cons]
    exact (storeInto_checks v e).bind fun _ => ih

theorem Construct.fault?_deleting {t : ScopeTree} {x : String} (ht : t.HasKind id around.scope) :
    (deleting (.name x)).fault? around =
      if (t.home? id x).isSome then none else some { cause := .deleteNonexistentLocal x } := by
  obtain ⟨s, hs, hkind⟩ := ht
  rw [fault?, ← hkind]
  cases hk : s.kind with
  | module => simp [ScopeTree.home?, hs, hk]
  | classBody globals => simp [ScopeTree.home?, hs, hk]
  | function f =>
    cases hx : f.vars.find? x with
    | none => simp [ScopeTree.home?, hs, hk, hx]
    | some kind => cases kind <;> simp [ScopeTree.home?, hs, hk, hx]

/-- Deleting a name fails exactly if a function has no record of it. -/
theorem deleteName_checks (x : String) :
    Checks id around.scope (deleteName id x) [around.site (.deleting (.name x))] := by
  refine .ofTree (growsTo_treeRelation.keeps.deleteName id x) fun t ht => ?_
  have hfault := (Site.fault?_site around _).trans (Construct.fault?_deleting (x := x) ht)
  cases hhome : t.home? id x with
  | none =>
    rw [hhome] at hfault
    exact .fail hfault
  | some home =>
    rw [hhome] at hfault
    refine Checks.skip (.routine ?_) hfault
    cases home with
    | globals => exact routine.bind (routine.intern x) fun _ => routine.act _
    | classBody => exact routine.bind (routine.intern x) fun _ => routine.act _
    | slot => exact routine.bind (routine.act _) fun _ => routine.act _

theorem deleteAll_checks : (es : List Expr) →
    Checks id around.scope (deleteAll id es) (es.map fun e => around.site (.deleting e))
  | [] => .routine (routine.pure ())
  | .name x :: rest => (deleteName_checks x).bind fun _ => deleteAll_checks rest
  | .str _ :: _ | .int _ :: _ | .tuple _ :: _ | .list _ :: _ | .attr _ _ :: _ | .call _ _ :: _
  | .binop _ _ _ :: _ | .yield _ :: _ => .fail (Site.fault?_site around _)

/-- Loading a module fails if its path is empty, whichever construct the module is loaded for. -/
theorem loadModule_checks {path : ModulePath} {s : Site}
    (h : s.fault? = if path.parts.isEmpty then
      some { cause := .unsupported "import of an empty module path" } else none) :
    Checks id around.scope (loadModule id path) [s] := by
  refine (Checks.require ?_).andThen fun _ => routine.bind (routine.addPackages _ _) fun _ =>
    routine.callInto id _ _
  rw [h]
  cases path.parts.isEmpty <;> rfl

theorem Site.first?_loading {path : ModulePath} (h : path.parts = []) :
    Site.first? [around.site (.loading path)] =
      some { cause := .unsupported "import of an empty module path" } := by
  simp [Site.first?, Site.fault?_site, Construct.fault?, h]

theorem importModule_checks (a : Alias) :
    Checks id around.scope (importModule id a) [around.site (.loading a.path)] := by
  have hload : Checks id around.scope (loadModule id a.path) [around.site (.loading a.path)] :=
    loadModule_checks (Site.fault?_site around _)
  have hstore (modules : Temp) (x : String) (v : Value) :
      Routine (storeName id x v >>= fun _ => release id modules) :=
    routine.bind (.storeName id x v) fun _ => routine.release id modules
  cases hparts : a.path.parts with
  | nil =>
    exact hload.stops (Site.first?_loading hparts) (growsTo_treeRelation.keeps.importModule id a)
  | cons part rest =>
    -- A path with a component has a first one, so there is a name to store.
    have hfirst : a.path.first? = some part := congrArg List.head? hparts
    refine hload.andThen fun modules => ?_
    rw [hfirst]
    cases a.asName with
    | some x => exact hstore modules x _
    | none => exact hstore modules part _

theorem importModules_checks (names : List Alias) :
    Checks id around.scope (importModules id names)
      (names.map fun a => around.site (.loading a.path)) := by
  induction names with
  | nil => exact .routine (routine.pure ())
  | cons a rest ih => exact (importModule_checks a).bind fun _ => ih

theorem Routine.importMember (id : Nat) (x : String) (c : Call) :
    Routine (Build.importMember id x c) :=
  routine.bind (routine.callInto id _ c) fun _ => routine.bind (.storeName id x _) fun _ =>
    routine.release id _

theorem Routine.importMembers (id : Nat) (module : Value) (names : List Alias) :
    Routine (Build.importMembers id module names) := by
  induction names with
  | nil => exact routine.pure ()
  | cons a rest ih =>
    unfold Build.importMembers
    split
    · exact ih
    · exact routine.bind (routine.intern _) fun _ => routine.bind (.importMember id _ _) fun _ => ih

theorem Routine.importNativeMembers (id : Nat) (reflect package : Package) (names : List Alias) :
    Routine (Build.importNativeMembers id reflect package names) := by
  induction names with
  | nil => exact routine.pure ()
  | cons a rest ih =>
    unfold Build.importNativeMembers
    split
    · exact ih
    · exact routine.bind (.importMember id _ _) fun _ => ih

/-- Importing from a Go package fails if there is no path behind the reserved name. -/
theorem importNative_checks {path : ModulePath} (h : path.first? = some nativeRoot)
    (names : List Alias) : Checks id around.scope (importNative id path.parts.tail names)
      [around.site (.loadingFrom path 0)] := by
  obtain ⟨rest, hrest⟩ : ∃ rest, path.parts = nativeRoot :: rest := by
    rw [ModulePath.first?, List.head?_eq_some_iff] at h
    exact h
  refine (Checks.require ?_).andThen fun _ => routine.bind (routine.addNative _) fun _ =>
    routine.bind (routine.addNative _) fun _ => .importNativeMembers id _ _ names
  rw [Site.fault?_site, Construct.fault?, if_neg (by simp), hrest]
  cases rest <;> simp

theorem importFrom_checks (path : ModulePath) (names : List Alias) (level : Nat) :
    Checks id around.scope (importFrom id path names level)
      [around.site (.loadingFrom path level)] := by
  cases level with
  | succ n =>
    have hfault : (around.site (.loadingFrom path (n + 1))).fault? =
        some { cause := .unsupported "relative import" } := Site.fault?_site around _
    exact .stops (.fail hfault) (Site.first?_cons_of_some hfault)
      (growsTo_treeRelation.keeps.importFrom id path names _)
  | zero =>
    refine .after (routine.pure ()) fun _ => ?_
    split
    · next h => exact importNative_checks h names
    · next h =>
      have hparts : path.parts ≠ [nativeRoot] := fun hp => h (congrArg List.head? hp)
      refine (loadModule_checks ?_).andThen fun modules =>
        routine.bind (.importMembers id _ names) fun _ => routine.release id modules
      rw [Site.fault?_site, Construct.fault?, if_neg (by simp), if_neg hparts]

/-! ### Definitions -/

theorem updateName_checks (x : String) (op : BinOp) (value : Expr) :
    Checks id around.scope (updateName id x op value) (around.evaluations [value]) :=
  .after (routine.readName id x) fun _ => (lowerExpr_checks value).andThen fun _ =>
    routine.bind (routine.callInto id _ _) fun _ => routine.bind (routine.releaseAll id _) fun _ =>
      routine.bind (.storeName id x _) fun _ => routine.release id _

theorem lowerReturn_checks (value : Option Expr) :
    Checks id around.scope (lowerReturn id value)
      (around.site (.returning value) :: around.evaluations value.toList) := by
  refine .ofTree (lowerReturn_keeps growsTo_treeRelation id value) fun t ⟨s, hs, hkind⟩ => ?_
  have hfault := Site.fault?_site around (.returning value)
  rw [Construct.fault?] at hfault
  rw [hs, Option.bind_some, Scope.function?, hkind]
  cases hscope : around.scope with
  | module =>
    rw [hscope] at hfault
    exact .fail hfault
  | classBody globals =>
    rw [hscope] at hfault
    exact .fail hfault
  | function f =>
    have hreturn : (around.site (.returning value)).fault? =
        if f.isGenerator && value.isSome then
          some { cause := .unsupported "'return' with a value inside a generator" }
        else none := by rw [hfault, hscope]
    dsimp only
    cases hgen : f.isGenerator with
    | true =>
      rw [hgen] at hreturn
      cases value with
      | none => exact (Checks.routine (.emit _)).skip hreturn
      | some e => exact .fail hreturn
    | false =>
      rw [hgen] at hreturn
      cases value with
      | none => exact (Checks.routine (.emit _)).skip hreturn
      | some e =>
        rw [← hscope]
        refine Checks.skip ((lowerExpr_checks e).andThen fun v => ?_) hreturn
        exact routine.bind (.emit _) fun _ => routine.releaseValue id v

theorem defineFunction_checks (name : String) (params : Parameters) (f : FunctionVars)
    {body : Nat → Build Unit} {sites : List Site}
    (hb : ∀ inner, Checks inner (.function f) (body inner) sites) :
    Checks id around.scope (defineFunction id name params f body) sites := by
  refine .enter fun inner => ((hb inner).bodyWithEnd _).andThen fun _ => ?_
  exact routine.bind (routine.declaredTemps inner) fun _ => routine.bind (routine.acquire id _)
    fun _ => routine.bind (.emit _) fun _ => routine.bind (.storeName id name _) fun _ =>
      routine.release id _

theorem defineClass_checks (cx : Context) (name : String) (bases : List Expr) (vars : VarMap)
    {body : Nat → Build Unit} {sites : List Site}
    (hb : ∀ inner, Checks inner (.classBody vars.globals) (body inner) sites) :
    Checks id around.scope (defineClass cx id name bases vars body)
      (around.evaluations bases ++ sites) := by
  refine (lowerExprs_checks bases).bind fun vs => .after (routine.acquire id _) fun _ =>
    .after (routine.act _) fun _ => .after (routine.releaseAll id vs) fun _ =>
      .after (routine.acquire id _) fun _ => .after (routine.act _) fun _ =>
        .after (routine.intern _) fun _ => .after (routine.act _) fun _ =>
          .enter fun inner => ((hb inner).bodyWithEnd _).andThen fun _ => ?_
  exact routine.bind (routine.declaredTemps inner) fun _ => routine.bind (routine.acquire id _)
    fun _ => routine.bind (.emit _) fun _ => routine.bind (routine.act _) fun _ =>
      routine.bind (routine.intern _) fun _ => routine.bind (routine.callInto id _ _) fun _ =>
        routine.bind (.storeName id name _) fun _ => routine.releaseAll id _

/-- A loop control fails outside of every loop of the scope. -/
theorem loopControl_checks (keyword : String) (s : Step) :
    Checks id around.scope
      (if around.inLoop then emit s else fail (.loopControlOutsideLoop keyword))
      [around.site (.loopControl keyword)] := by
  have hfault := Site.fault?_site around (.loopControl keyword)
  rw [Construct.fault?] at hfault
  cases hloop : around.inLoop with
  | true =>
    rw [hloop] at hfault
    exact (Checks.routine (.emit s)).skip hfault
  | false =>
    rw [hloop] at hfault
    exact .fail hfault

mutual

theorem lowerStmt_checks (cx : Context) : (id : Nat) → (around : Surroundings) → (s : Stmt) →
    Checks id around.scope (lowerStmt cx id around.inLoop s) (s.sites around)
  | id, around, .mk span kind =>
    .after (routine.annotate cx span) fun _ => (lowerKind_checks cx id around kind).locate span

theorem lowerKind_checks (cx : Context) : (id : Nat) → (around : Surroundings) →
    (kind : StmtKind) → Checks id around.scope (lowerKind cx id around.inLoop kind)
      (kind.sites around)
  | id, around, .assign targets value =>
    (lowerExpr_checks value).bind fun v => (storeIntoAll_checks v targets).andThen fun _ =>
      routine.releaseValue id v
  | _, around, .augAssign (.name x) op value =>
    (updateName_checks x op value).skip (Site.fault?_site around _)
  | _, around, .augAssign (.str _) _ _ | _, around, .augAssign (.int _) _ _
  | _, around, .augAssign (.tuple _) _ _ | _, around, .augAssign (.list _) _ _
  | _, around, .augAssign (.attr _ _) _ _ | _, around, .augAssign (.call _ _) _ _
  | _, around, .augAssign (.binop _ _ _) _ _ | _, around, .augAssign (.yield _) _ _ =>
    .fail (Site.fault?_site around _)
  | _, _, .delete targets => deleteAll_checks targets
  | _, _, .global _ => .routine (routine.pure ())
  | _, _, .imports names => importModules_checks names
  | _, _, .importsFrom path names level => importFrom_checks path names level
  | id, around, .functionDef name params body => by
    refine .lift (Site.fault?_site around _)
      (fun f => defineFunction_keeps growsTo_treeRelation id name params f fun inner =>
        lowerBody_keeps growsTo_treeRelation cx inner false body) fun f hf => ?_
    rw [hf]
    exact defineFunction_checks name params f fun inner =>
      lowerBody_checks cx inner ⟨.function f, false⟩ body
  | id, around, .classDef name bases body => by
    refine .lift (Site.fault?_site around _)
      (fun vars => defineClass_keeps growsTo_treeRelation cx id name bases vars fun inner =>
        lowerBody_keeps growsTo_treeRelation cx inner false body) fun vars hvars => ?_
    rw [hvars]
    exact defineClass_checks cx name bases vars fun inner =>
      lowerBody_checks cx inner ⟨.classBody vars.globals, false⟩ body
  | id, around, .forEach target iter body orelse => by
    have hbind (v : Value) (item : Temp) : Checks id around.scope
        (codeOf (storeInto id v target >>= fun _ => release id item)) (around.stores target) :=
      ((storeInto_checks v target).andThen fun _ => routine.release id item).codeOf
    have hbody := (lowerBody_checks cx id { around with inLoop := true } body).codeOf
    have helse (iterator item : Temp) (bind steps : List Step) :=
      (lowerElse_checks cx id around orelse).andThen fun other =>
        routine.bind (.emit (.forLoop iterator item bind steps other)) fun _ =>
          routine.release id iterator
    exact (lowerExpr_checks iter).bind fun v => .after (routine.callInto id _ _) fun iterator =>
      .after (routine.releaseValue id v) fun _ => .after (routine.acquire id _) fun item =>
        (hbind _ item).bind fun bind => hbody.bind fun steps => helse iterator item bind steps
  | id, around, .whileLoop test body orelse =>
    (lowerTest_checks test).collect.bind fun tested =>
      (Checks.after (routine.releaseTest id tested.1) fun _ =>
        lowerBody_checks cx id { around with inLoop := true } body).codeOf.bind fun _ =>
          (lowerElse_checks cx id around orelse).andThen fun _ => .emit _
  | id, around, .branch test body orelse =>
    (lowerTest_checks test).collect.bind fun tested =>
      (Checks.after (routine.releaseTest id tested.1) fun _ =>
        lowerBody_checks cx id around body).codeOf.bind fun _ =>
          (lowerElse_checks cx id around orelse).andThen fun _ => .emit _
  | _, around, .withItems _ _ => .fail (Site.fault?_site around _)
  | _, around, .tryExcept _ _ _ _ => .fail (Site.fault?_site around _)
  | _, _, .ret value => lowerReturn_checks value
  | id, _, .expr value => (lowerExpr_checks value).andThen fun v => routine.releaseValue id v
  | _, _, .breakLoop => loopControl_checks "break" .breakLoop
  | _, _, .continueLoop => loopControl_checks "continue" .continueLoop
  | _, _, .pass => .routine (routine.pure ())

theorem lowerElse_checks (cx : Context) : (id : Nat) → (around : Surroundings) →
    (body : List Stmt) → Checks id around.scope (lowerElse cx id around.inLoop body)
      (Stmt.sitesOfBody around body)
  | _, _, [] => .routine (routine.pure _)
  | id, around, s :: rest =>
    ((lowerStmt_checks cx id around s).bind fun _ =>
      lowerBody_checks cx id around rest).codeOf.andThen fun _ => routine.pure _

theorem lowerBody_checks (cx : Context) : (id : Nat) → (around : Surroundings) →
    (body : List Stmt) → Checks id around.scope (lowerBody cx id around.inLoop body)
      (Stmt.sitesOfBody around body)
  | _, _, [] => .routine (routine.pure ())
  | id, around, s :: rest =>
    (lowerStmt_checks cx id around s).bind fun _ => lowerBody_checks cx id around rest

end

/-- A module fails only because of a construct: every name that it stores has a place, and every
scratch variable that it gives back is in use. -/
theorem compile_not_internal {o : Options} {source : Option String} {body : List Stmt} {e : Error}
    (h : compile o source body = .error e) : ¬e.cause.Internal := by
  intro hinternal
  cases hc : e.cause with
  | unclassifiedName x =>
    have hstores := bodyWithEnd_stores false
      (lowerBody_stores { options := o, source := source.map .ofText } ScopeTree.moduleId false
        body)
    obtain ⟨-, hhome⟩ := hstores.of_error (initialTree o) e x rfl (compile_error h) hc
    cases hhome
  | tempNotInUse v =>
    have hbody := bodyWithEnd_balances false
      (lowerBody_leases { options := o, source := source.map .ofText } ScopeTree.moduleId false
        body).toBalances
    have ht := (initialTree_reached o).sound ScopeTree.moduleId (initialTree_isSome o)
    exact hbody.of_error (initialTree o) 0 e v ht rfl (compile_error h) hc
  | duplicateArgument _ | parameterAndGlobal _ | usedPriorToGlobal _ | deleteNonexistentLocal _
  | returnOutsideFunction | loopControlOutsideLoop _ | unsupported _ =>
    rw [hc] at hinternal
    exact hinternal

/-- A module ends with its first fault, if it has one. -/
theorem errorOf?_compile (o : Options) (source : Option String) (body : List Stmt) :
    errorOf? (compile o source body) = Site.first? (Site.ofModule body) := by
  have hchecks := (lowerBody_checks { options := o, source := source.map .ofText }
    ScopeTree.moduleId ⟨.module, false⟩ body).bodyWithEnd false
  have hmodule : (initialTree o).HasKind ScopeTree.moduleId .module := ⟨_, rfl, rfl⟩
  cases h : compile o source body with
  | ok text =>
    obtain ⟨r, hr, -⟩ := compile_ok h
    exact (hchecks.of_ok _ r hmodule hr).symm
  | error e =>
    have hfirst := hchecks.of_error _ e hmodule (compile_error h)
    exact (hfirst.resolve_right (compile_not_internal h)).symm

/-- A module compiles exactly if none of its constructs, at any depth, has a fault, whatever the
options are and whether or not its source is given. If there are faults, it fails with the one that
comes first in the order in which code is generated. -/
theorem compile_accepts (o : Options) (source : Option String) (body : List Stmt) :
    ((∃ text, compile o source body = .ok text) ↔
      ∀ s ∈ Site.ofModule body, s.fault? = none) ∧
    ∀ e, compile o source body = .error e ↔
      ∃ before s after, Site.ofModule body = before ++ s :: after ∧
        (∀ q ∈ before, q.fault? = none) ∧ s.fault? = some e := by
  rw [← Site.first?_eq_none_iff]
  simp only [← Site.first?_eq_some_iff, ← errorOf?_compile o source body]
  cases compile o source body with
  | ok text => simp [errorOf?]
  | error e => simp [errorOf?]

/-- The other side of a loop is not in the loop, and a fault of the loop's body comes before it. -/
example : Site.first? (Site.ofModule [.mk ⟨3, 9⟩ (.whileLoop (.name "x")
      [.mk ⟨5, 5⟩ .breakLoop, .mk ⟨6, 1⟩ (.delete [.int 1])] [.mk ⟨8, 5⟩ .breakLoop])]) =
    some ⟨.unsupported "deleting this target", some ⟨6, 1⟩⟩ := rfl

end Goward
