import Goward.Proofs.Compilation
import Goward.Proofs.Growth
import Goward.Proofs.StoredNames

/-!
# Places to store names

A function can store only the names that its classification lists, and lowering fails at any other
one. Builds are told apart by the names that they store in a scope: where one of them succeeds, each
of its names has a place there, and it fails for want of a place only at one of its names that has
none. Main result: the names that the code of a function stores are all listed, so no module fails
for that reason.
-/

namespace Goward

open Goward.Build Goward.Code
open ScopeTree (growsTo_treeRelation)

/-- A scope of this kind has a place for a name. -/
def ScopeKind.HasPlace (kind : ScopeKind) (x : String) : Prop :=
  ∀ f, kind = .function f → f.vars.Knows x

theorem ScopeTree.home?_isSome_iff {t : ScopeTree} {id : Nat} {s : Scope} {x : String}
    (hs : t.scope? id = some s) : (t.home? id x).isSome ↔ s.kind.HasPlace x := by
  cases hkind : s.kind with
  | module => simp [home?, hs, hkind, ScopeKind.HasPlace]
  | classBody globals => simp [home?, hs, hkind, ScopeKind.HasPlace]
  | function f =>
    have hplace : (ScopeKind.function f).HasPlace x ↔ f.vars.Knows x :=
      ⟨fun h => h f rfl, fun h g hg => by cases hg; exact h⟩
    rw [hplace, VarMap.Knows]
    cases hx : f.vars.find? x with
    | none => simp [home?, hs, hkind, hx]
    | some kind => cases kind <;> simp [home?, hs, hkind, hx]

/-- A build that lets the tree grow and does not fail for want of a place for a name. -/
structure Placed {α : Type} (b : Build α) : Prop where
  grows : Keeps ScopeTree.GrowsTo b
  placed : ∀ t e x, b.run t = .error e → e.cause ≠ .unclassifiedName x

namespace Placed

variable {α : Type}

theorem emit (s : Step) : Placed (Build.emit s) := ⟨.emit growsTo_treeRelation s, nofun⟩

theorem fail {c : Cause} (hc : ∀ x, c ≠ .unclassifiedName x) : Placed (Build.fail c : Build α) := by
  refine ⟨.fail c, fun t e x h => ?_⟩
  cases h
  exact hc x

theorem collect {b : Build α} (h : Placed b) : Placed (Build.collect b) :=
  ⟨.collect h.grows, fun t e x he => h.placed t e x (run_collect_error.mp he)⟩

theorem require (b : Bool) {c : Cause} (hc : ∀ x, c ≠ .unclassifiedName x) :
    Placed (Build.require b c) := by
  cases b with
  | false => exact fail hc
  | true => exact ⟨.pure growsTo_treeRelation (), nofun⟩

end Placed

theorem placed : SuspendProperty Placed where
  pure a := ⟨.pure growsTo_treeRelation a, nofun⟩
  bind hb hf := by
    refine ⟨.bind growsTo_treeRelation hb.grows fun a => (hf a).grows, fun t e x h => ?_⟩
    rcases run_bind_error.mp h with h | ⟨first, -, h⟩
    · exact hb.placed t e x h
    · exact (hf first.value).placed first.tree e x h
  tree := ⟨.tree growsTo_treeRelation, nofun⟩
  act a := .emit (.action a)
  alloc id type := ⟨growsTo_treeRelation.keeps.alloc id type, nofun⟩
  free id v := by
    refine ⟨growsTo_treeRelation.keeps.free id v, fun t e x h => ?_⟩
    rw [(run_free_error h).1]
    exact nofun
  intern s := ⟨growsTo_treeRelation.keeps.intern s, nofun⟩
  addImport path := ⟨growsTo_treeRelation.keeps.addImport path, nofun⟩
  addNative path := ⟨growsTo_treeRelation.keeps.addNative path, nofun⟩
  requireGenerator id := by
    refine ⟨growsTo_treeRelation.keeps.requireGenerator id, fun t e x h => ?_⟩
    rcases run_bind_error.mp h with h | ⟨first, -, h⟩
    · cases h
    · have hc : ∀ y, yieldOutside ≠ .unclassifiedName y := nofun
      exact (Placed.require _ hc).placed _ e x h
  emitSuspend v := .emit (.suspend v)

/-- A build that stores the given names in a scope. -/
structure Stores {α : Type} (id : Nat) (b : Build α) (xs : List String) : Prop where
  grows : Keeps ScopeTree.GrowsTo b
  /-- Where it succeeds, each of the names has a place. -/
  of_ok : ∀ t r, (t.scope? id).isSome → b.run t = .ok r → ∀ x ∈ xs, (t.home? id x).isSome
  /-- It fails for want of a place only at one of the names that has none. -/
  of_error : ∀ t e x, (t.scope? id).isSome → b.run t = .error e → e.cause = .unclassifiedName x →
    x ∈ xs ∧ t.home? id x = none

namespace Stores

variable {α β : Type} {id : Nat} {xs ys : List String}

theorem none {b : Build α} (h : Placed b) : Stores id b [] where
  grows := h.grows
  of_ok _ _ _ _ _ hx := nomatch hx
  of_error t e x _ he hc := absurd hc (h.placed t e x he)

/-- What always fails, and not for want of a place, stores any names. -/
theorem fail {c : Cause} (hc : ∀ x, c ≠ .unclassifiedName x) :
    Stores id (Build.fail c : Build α) xs where
  grows := .fail c
  of_ok _ _ _ h := nomatch h
  of_error t e x _ h hc' := by
    cases h
    exact absurd hc' (hc x)

theorem bind {b : Build α} {f : α → Build β} (hb : Stores id b xs)
    (hf : ∀ a, Stores id (f a) ys) : Stores id (b >>= f) (xs ++ ys) where
  grows := .bind growsTo_treeRelation hb.grows fun a => (hf a).grows
  of_ok t r ht h x hx := by
    obtain ⟨first, h₁, second, h₂, -⟩ := run_bind_ok.mp h
    have hg := hb.grows t first h₁
    rcases List.mem_append.mp hx with hx | hx
    · exact hb.of_ok t first ht h₁ x hx
    · rw [← hg.home?_eq ht]
      exact (hf first.value).of_ok first.tree second (hg.isSome ht) h₂ x hx
  of_error t e x ht h hc := by
    rcases run_bind_error.mp h with h | ⟨first, h₁, h₂⟩
    · obtain ⟨hx, hhome⟩ := hb.of_error t e x ht h hc
      exact ⟨List.mem_append_left ys hx, hhome⟩
    · have hg := hb.grows t first h₁
      obtain ⟨hx, hhome⟩ := (hf first.value).of_error first.tree e x (hg.isSome ht) h₂ hc
      rw [hg.home?_eq ht] at hhome
      exact ⟨List.mem_append_right xs hx, hhome⟩

theorem andThen {b : Build α} {f : α → Build β} (hb : Stores id b xs) (hf : ∀ a, Placed (f a)) :
    Stores id (b >>= f) xs := by
  have hrest (a : α) : Stores id (f a) [] := none (hf a)
  have h := hb.bind hrest
  rwa [List.append_nil] at h

theorem after {b : Build α} {f : α → Build β} (hb : Placed b) (hf : ∀ a, Stores id (f a) xs) :
    Stores id (b >>= f) xs := (none hb).bind hf

theorem codeOf {b : Build Unit} (h : Stores id b xs) : Stores id (Build.codeOf b) xs where
  grows := .codeOf h.grows
  of_ok t r ht hr := by
    obtain ⟨inner, hi, -⟩ := run_codeOf_ok.mp hr
    exact h.of_ok t inner ht hi
  of_error t e x ht he hc := h.of_error t e x ht (run_codeOf_error.mp he) hc

theorem locate {b : Build α} (span : Span) (h : Stores id b xs) :
    Stores id (Build.locate span b) xs where
  grows := .locate h.grows
  of_ok t r ht hr := h.of_ok t r ht (run_locate_ok.mp hr)
  of_error t e x ht he hc := by
    obtain ⟨e', he', hcause⟩ := run_locate_error he
    exact h.of_error t e' x ht he' (hcause.trans hc)

/-- What is built in a scope that is entered cannot fail for want of a place if that scope has a
place for all of its names. -/
theorem enclosing (kind : ScopeKind) (ys : List String) {name : String} {body : Nat → Build α}
    {rest : Nat → α → Build β} (hkind : ∀ y ∈ ys, kind.HasPlace y)
    (hbody : ∀ inner, Stores inner (body inner) ys)
    (hrest : ∀ inner a, Stores id (rest inner a) xs) :
    Stores id (Build.onTree (·.push id name kind) >>= fun inner => body inner >>= rest inner)
      xs where
  grows := .bind growsTo_treeRelation (.onTree fun t => growsTo_treeRelation.push t id name kind)
    fun inner => .bind growsTo_treeRelation (hbody inner).grows fun a => (hrest inner a).grows
  of_ok t r ht h x hx := by
    obtain ⟨entered, h₁, second, h₂, -⟩ := run_bind_ok.mp h
    cases h₁
    obtain ⟨first, h₃, third, h₄, -⟩ := run_bind_ok.mp h₂
    have hg := (ScopeTree.GrowsTo.push t id name kind).trans ((hbody _).grows _ first h₃)
    rw [← hg.home?_eq ht]
    exact (hrest _ first.value).of_ok first.tree third (hg.isSome ht) h₄ x hx
  of_error t e x ht h hc := by
    rcases run_bind_error.mp h with h | ⟨entered, h₁, h₂⟩
    · cases h
    · cases h₁
      obtain ⟨s, hs, hk⟩ := t.scope?_push id name kind
      rcases run_bind_error.mp h₂ with h₃ | ⟨first, h₃, h₄⟩
      · obtain ⟨hy, hhome⟩ := (hbody _).of_error _ e x (Option.isSome_iff_exists.mpr ⟨s, hs⟩) h₃ hc
        have hplace := (ScopeTree.home?_isSome_iff (x := x) hs).mpr (hk ▸ hkind x hy)
        rw [hhome] at hplace
        cases hplace
      · have hg := (ScopeTree.GrowsTo.push t id name kind).trans ((hbody _).grows _ first h₃)
        obtain ⟨hx, hhome⟩ := (hrest _ first.value).of_error first.tree e x (hg.isSome ht) h₄ hc
        rw [hg.home?_eq ht] at hhome
        exact ⟨hx, hhome⟩

end Stores

variable {id : Nat}

/-- Storing a name fails exactly if it has no place. -/
theorem storeName_stores (x : String) (v : Value) : Stores id (storeName id x v) [x] where
  grows := growsTo_treeRelation.keeps.storeName id x v
  of_ok t r _ h y hy := by
    obtain rfl := List.mem_singleton.mp hy
    obtain ⟨first, h₁, second, h₂, -⟩ := run_bind_ok.mp h
    cases h₁
    cases hhome : t.home? id y with
    | none =>
      simp only [hhome] at h₂
      cases h₂
    | some home => rfl
  of_error t e y _ h hc := by
    rcases run_bind_error.mp h with h | ⟨first, h₁, h₂⟩
    · cases h
    · cases h₁
      cases hhome : t.home? id x with
      | none =>
        simp only [hhome] at h₂
        cases h₂
        cases hc
        exact ⟨List.mem_singleton_self x, hhome⟩
      | some home => cases home <;> simp only [hhome] at h₂ <;> cases h₂

theorem deleteName_placed (x : String) : Placed (deleteName id x) := by
  have hfail : Placed (fail (.deleteNonexistentLocal x) : Build Unit) := .fail nofun
  refine placed.bind placed.tree fun t => ?_
  split
  · exact hfail
  · exact placed.bind (placed.intern x) fun _ => placed.act _
  · exact placed.bind (placed.intern x) fun _ => placed.act _
  · exact placed.bind (placed.act _) fun _ => placed.act _

theorem unpack_stores (v : Value) (n : Nat) {store : Temp → Build Unit} {xs : List String}
    (hs : ∀ items, Stores id (store items) xs) : Stores id (unpack id v n store) xs :=
  .after (placed.acquire id _) fun items => .after (placed.act _) fun _ =>
    .after (placed.act _) fun _ => (hs items).andThen fun _ => placed.release id items

mutual

theorem storeInto_stores (v : Value) : (e : Expr) → Stores id (storeInto id v e) e.boundNames
  | .name x => storeName_stores x v
  | .attr obj _ =>
    .none (placed.bind (placed.lowerExpr id obj) fun _ => placed.bind (placed.intern _) fun _ =>
      placed.bind (placed.act _) fun _ => placed.releaseValue id _)
  | .tuple elts => unpack_stores v elts.length fun items => storeItems_stores items 0 elts
  | .list elts => unpack_stores v elts.length fun items => storeItems_stores items 0 elts
  | .str _ | .int _ | .call _ _ | .binop _ _ _ | .yield _ => .fail nofun

theorem storeItems_stores (items : Temp) : (index : Nat) → (es : List Expr) →
    Stores id (storeItems id items index es) (Expr.boundNamesAll es)
  | _, [] => .none (placed.pure ())
  | index, e :: rest =>
    (storeInto_stores (.item items index) e).bind fun _ => storeItems_stores items (index + 1) rest

end

theorem storeIntoAll_stores (v : Value) (es : List Expr) :
    Stores id (storeIntoAll id v es) (Expr.boundNamesAll es) := by
  induction es with
  | nil => exact .none (placed.pure ())
  | cons e rest ih => exact (storeInto_stores v e).bind fun _ => ih

theorem deleteAll_placed : (es : List Expr) → Placed (deleteAll id es)
  | [] => placed.pure ()
  | .name x :: rest => placed.bind (deleteName_placed x) fun _ => deleteAll_placed rest
  | .str _ :: _ | .int _ :: _ | .tuple _ :: _ | .list _ :: _ | .attr _ _ :: _ | .call _ _ :: _
  | .binop _ _ _ :: _ | .yield _ :: _ => .fail nofun

/-! ### Imports -/

theorem loadModule_placed (path : ModulePath) : Placed (loadModule id path) :=
  placed.bind (.require _ nofun) fun _ => placed.bind (placed.addPackages _ _) fun _ =>
    placed.callInto id _ _

theorem importModule_stores (a : Alias) :
    Stores id (importModule id a) a.importedName?.toList := by
  refine .after (loadModule_placed a.path) fun modules => ?_
  rw [Alias.importedName?]
  cases a.asName with
  | some x => exact (storeName_stores x _).andThen fun _ => placed.release id modules
  | none =>
    cases a.path.first? with
    | some x => exact (storeName_stores x _).andThen fun _ => placed.release id modules
    | none => exact Stores.andThen (.fail nofun) fun _ => placed.release id modules

theorem importMember_stores (x : String) (c : Call) : Stores id (importMember id x c) [x] :=
  .after (placed.callInto id _ c) fun member => (storeName_stores x _).andThen fun _ =>
    placed.release id member

theorem importMembers_stores (module : Value) (names : List Alias) :
    Stores id (importMembers id module names) (names.filterMap Alias.storedMember?) := by
  induction names with
  | nil => exact .none (placed.pure ())
  | cons a rest ih =>
    unfold importMembers
    cases hlast : a.path.last? with
    | none =>
      rw [List.filterMap_cons_none (by rw [Alias.storedMember?, hlast]; rfl)]
      exact ih
    | some name =>
      rw [List.filterMap_cons_some (by rw [Alias.storedMember?, hlast]; rfl)]
      exact .after (placed.intern name) fun _ => (importMember_stores _ _).bind fun _ => ih

theorem importNativeMembers_stores (reflect package : Package) (names : List Alias) :
    Stores id (importNativeMembers id reflect package names)
      (names.filterMap Alias.storedMember?) := by
  induction names with
  | nil => exact .none (placed.pure ())
  | cons a rest ih =>
    unfold importNativeMembers
    cases hlast : a.path.last? with
    | none =>
      rw [List.filterMap_cons_none (by rw [Alias.storedMember?, hlast]; rfl)]
      exact ih
    | some name =>
      rw [List.filterMap_cons_some (by rw [Alias.storedMember?, hlast]; rfl)]
      exact (importMember_stores _ _).bind fun _ => ih

theorem importFrom_stores (path : ModulePath) (names : List Alias) (level : Nat) :
    Stores id (importFrom id path names level) (names.filterMap Alias.storedMember?) := by
  refine .after (.require _ nofun) fun _ => ?_
  split
  · exact .after (.require _ nofun) fun _ => .after (placed.addNative _) fun package =>
      .after (placed.addNative _) fun reflect => importNativeMembers_stores reflect package names
  · exact .after (loadModule_placed path) fun modules =>
      (importMembers_stores _ names).andThen fun _ => placed.release id modules

theorem importModules_stores (names : List Alias) :
    Stores id (importModules id names) (names.filterMap Alias.importedName?) := by
  induction names with
  | nil => exact .none (placed.pure ())
  | cons a rest ih =>
    have hfirst : Stores id (importModule id a) a.importedName?.toList := importModule_stores a
    have h := hfirst.bind fun _ => ih
    cases hname : a.importedName? with
    | none =>
      rw [List.filterMap_cons_none hname]
      rwa [hname] at h
    | some x =>
      rw [List.filterMap_cons_some hname]
      rwa [hname] at h

theorem updateName_stores (x : String) (op : BinOp) (value : Expr) :
    Stores id (updateName id x op value) [x] :=
  .after (placed.readName id x) fun _ => .after (placed.lowerExpr id value) fun _ =>
    .after (placed.callInto id _ _) fun result => .after (placed.releaseAll id _) fun _ =>
      (storeName_stores x _).andThen fun _ => placed.release id result

theorem lowerReturn_placed (value : Option Expr) : Placed (lowerReturn id value) := by
  refine placed.bind placed.tree fun t => ?_
  split
  · exact .fail nofun
  · split
    · exact .emit _
    · exact .fail nofun
    · exact .emit _
    · exact placed.bind (placed.lowerExpr id _) fun _ => placed.bind (.emit _) fun _ =>
        placed.releaseValue id _

theorem bodyWithEnd_stores {body : Build Unit} {xs : List String} (returnsNone : Bool)
    (h : Stores id body xs) : Stores id (bodyWithEnd returnsNone body) xs :=
  (h.andThen fun _ => .emit _).codeOf

theorem defineFunction_stores (name : String) (params : Parameters) (f : FunctionVars)
    {body : Nat → Build Unit} {ys : List String} (hf : ∀ y ∈ ys, f.vars.Knows y)
    (hbody : ∀ inner, Stores inner (body inner) ys) :
    Stores id (defineFunction id name params f body) [name] := by
  refine .enclosing (.function f) ys (fun y hy g hg => ?_)
    (fun inner => bodyWithEnd_stores _ (hbody inner)) fun inner steps => ?_
  · cases hg
    exact hf y hy
  · exact .after (placed.declaredTemps inner) fun _ => .after (placed.acquire id _) fun fn =>
      .after (.emit _) fun _ => (storeName_stores name _).andThen fun _ => placed.release id fn

theorem defineClass_stores (cx : Context) (name : String) (bases : List Expr) (vars : VarMap)
    {body : Nat → Build Unit} {ys : List String} (hbody : ∀ inner, Stores inner (body inner) ys) :
    Stores id (defineClass cx id name bases vars body) [name] := by
  refine .after (placed.lowerExprs id bases) fun vs => .after (placed.acquire id _) fun _ =>
    .after (placed.act _) fun _ => .after (placed.releaseAll id vs) fun _ =>
      .after (placed.acquire id _) fun _ => .after (placed.act _) fun _ =>
        .after (placed.intern _) fun _ => .after (placed.act _) fun _ =>
          .enclosing (.classBody vars.globals) ys (fun _ _ => nofun)
            (fun inner => bodyWithEnd_stores _ (hbody inner)) fun inner steps => ?_
  exact .after (placed.declaredTemps inner) fun _ => .after (placed.acquire id _) fun _ =>
    .after (.emit _) fun _ => .after (placed.act _) fun _ => .after (placed.intern _) fun _ =>
      .after (placed.callInto id _ _) fun _ => (storeName_stores name _).andThen fun _ =>
        placed.releaseAll id _

theorem lift_stores {α β : Type} {x : Except Error α} {f : α → Build β} {xs : List String}
    (hx : ∀ e, x = .error e → ∀ y, e.cause ≠ .unclassifiedName y)
    (hk : ∀ a, Keeps ScopeTree.GrowsTo (f a)) (hf : ∀ a, x = .ok a → Stores id (f a) xs) :
    Stores id (Build.lift x >>= f) xs where
  grows := .bind growsTo_treeRelation (.lift growsTo_treeRelation x) hk
  of_ok t r ht h := by
    obtain ⟨first, h₁, second, h₂, -⟩ := run_bind_ok.mp h
    obtain ⟨a, ha, rfl⟩ := run_lift_ok.mp h₁
    exact (hf a ha).of_ok t second ht h₂
  of_error t e y ht h hc := by
    rcases run_bind_error.mp h with h | ⟨first, h₁, h₂⟩
    · exact absurd hc (hx e (run_lift_error.mp h) y)
    · obtain ⟨a, ha, rfl⟩ := run_lift_ok.mp h₁
      exact (hf a ha).of_error t e y ht h₂ hc

mutual

theorem lowerStmt_stores (cx : Context) : (id : Nat) → (inLoop : Bool) → (s : Stmt) →
    Stores id (lowerStmt cx id inLoop s) s.storedNames
  | id, inLoop, .mk span kind =>
    .after (placed.annotate cx span) fun _ => (lowerKind_stores cx id inLoop kind).locate span

theorem lowerKind_stores (cx : Context) : (id : Nat) → (inLoop : Bool) → (kind : StmtKind) →
    Stores id (lowerKind cx id inLoop kind) kind.storedNames
  | id, _, .assign targets value =>
    .after (placed.lowerExpr id value) fun v => (storeIntoAll_stores v targets).andThen fun _ =>
      placed.releaseValue id v
  | _, _, .augAssign (.name x) op value => updateName_stores x op value
  | _, _, .augAssign (.str _) _ _ | _, _, .augAssign (.int _) _ _
  | _, _, .augAssign (.tuple _) _ _ | _, _, .augAssign (.list _) _ _
  | _, _, .augAssign (.attr _ _) _ _ | _, _, .augAssign (.call _ _) _ _
  | _, _, .augAssign (.binop _ _ _) _ _ | _, _, .augAssign (.yield _) _ _ => .fail nofun
  | _, _, .delete targets => .none (deleteAll_placed targets)
  | _, _, .global _ => .none (placed.pure ())
  | _, _, .imports names => importModules_stores names
  | _, _, .importsFrom path names level => importFrom_stores path names level
  | id, _, .functionDef name params body => by
    refine lift_stores (fun _ he _ => (classifyFunction_error he).ne nofun)
      (fun f => defineFunction_keeps growsTo_treeRelation id name params f fun inner =>
        lowerBody_keeps growsTo_treeRelation cx inner false body) fun f hf => ?_
    exact defineFunction_stores name params f (fun y hy => classifyFunction_knows hf hy)
      fun inner => lowerBody_stores cx inner false body
  | id, _, .classDef name bases body => by
    refine lift_stores (fun _ he _ => (VarMap.observeAll_error he).ne nofun)
      (fun vars => defineClass_keeps growsTo_treeRelation cx id name bases vars fun inner =>
        lowerBody_keeps growsTo_treeRelation cx inner false body) fun vars _ => ?_
    exact defineClass_stores cx name bases vars fun inner => lowerBody_stores cx inner false body
  | id, inLoop, .forEach target iter body orelse => by
    have hbind (v : Value) (item : Temp) : Stores id
        (codeOf (storeInto id v target >>= fun _ => release id item)) target.boundNames :=
      ((storeInto_stores v target).andThen fun _ => placed.release id item).codeOf
    have hbody := (lowerBody_stores cx id true body).codeOf
    have helse := lowerElse_stores cx id inLoop orelse
    rw [StmtKind.storedNames, List.append_assoc]
    exact .after (placed.lowerExpr id iter) fun v => .after (placed.callInto id _ _) fun iterator =>
      .after (placed.releaseValue id v) fun _ => .after (placed.acquire id _) fun item =>
        (hbind _ item).bind fun bind => hbody.bind fun steps => helse.andThen fun other =>
          placed.bind (.emit (.forLoop iterator item bind steps other)) fun _ =>
            placed.release id iterator
  | id, inLoop, .whileLoop test body orelse =>
    .after ((placed.lowerTest id test).collect) fun tested =>
      (Stores.after (placed.releaseTest id tested.1) fun _ =>
        lowerBody_stores cx id true body).codeOf.bind fun _ =>
          (lowerElse_stores cx id inLoop orelse).andThen fun _ => .emit _
  | id, inLoop, .branch test body orelse =>
    .after ((placed.lowerTest id test).collect) fun tested =>
      (Stores.after (placed.releaseTest id tested.1) fun _ =>
        lowerBody_stores cx id inLoop body).codeOf.bind fun _ =>
          (lowerElse_stores cx id inLoop orelse).andThen fun _ => .emit _
  | _, _, .withItems _ _ => .fail nofun
  | _, _, .tryExcept _ _ _ _ => .fail nofun
  | _, _, .ret value => .none (lowerReturn_placed value)
  | id, _, .expr value =>
    .none (placed.bind (placed.lowerExpr id value) fun _ => placed.releaseValue id _)
  | _, inLoop, .breakLoop => by
    unfold lowerKind
    split
    · exact .none (.emit _)
    · exact .fail nofun
  | _, inLoop, .continueLoop => by
    unfold lowerKind
    split
    · exact .none (.emit _)
    · exact .fail nofun
  | _, _, .pass => .none (placed.pure ())

theorem lowerElse_stores (cx : Context) : (id : Nat) → (inLoop : Bool) → (body : List Stmt) →
    Stores id (lowerElse cx id inLoop body) (Stmt.storedNamesOfBody body)
  | _, _, [] => .none (placed.pure _)
  | id, inLoop, s :: rest =>
    ((lowerStmt_stores cx id inLoop s).bind fun _ =>
      lowerBody_stores cx id inLoop rest).codeOf.andThen fun _ => placed.pure _

theorem lowerBody_stores (cx : Context) : (id : Nat) → (inLoop : Bool) → (body : List Stmt) →
    Stores id (lowerBody cx id inLoop body) (Stmt.storedNamesOfBody body)
  | _, _, [] => .none (placed.pure ())
  | id, inLoop, s :: rest =>
    (lowerStmt_stores cx id inLoop s).bind fun _ => lowerBody_stores cx id inLoop rest

end

/-- Classification covers lowering: no module fails because a name has no place. For whenever a
function is classified, the names that the code of its body stores are all listed, and lowering the
body in a scope with this classification stores these names only. -/
theorem classification_covers_lowering (o : Options) (source : Option String) (body : List Stmt) :
    (∀ e x, compile o source body = .error e → e.cause ≠ .unclassifiedName x) ∧
    ∀ params fbody f, classifyFunction params fbody = .ok f →
      (∀ x ∈ Stmt.storedNamesOfBody fbody, f.vars.Knows x) ∧
      ∀ cx id inLoop, Stores id (lowerBody cx id inLoop fbody) (Stmt.storedNamesOfBody fbody) ∧
        ∀ t s e x, t.scope? id = some s → s.kind = .function f →
          (lowerBody cx id inLoop fbody).run t = .error e → e.cause ≠ .unclassifiedName x := by
  constructor
  · intro e x h hc
    have hstores := bodyWithEnd_stores false
      (lowerBody_stores { options := o, source := source.map .ofText } ScopeTree.moduleId false
        body)
    obtain ⟨-, hhome⟩ := hstores.of_error (initialTree o) e x rfl (compile_error h) hc
    -- The module has a place for every name.
    cases hhome
  · intro params fbody f hf
    refine ⟨fun x hx => classifyFunction_knows hf hx, fun cx id inLoop =>
      ⟨lowerBody_stores cx id inLoop fbody, fun t s e x hs hkind h hc => ?_⟩⟩
    obtain ⟨hx, hhome⟩ := (lowerBody_stores cx id inLoop fbody).of_error t e x
      (Option.isSome_iff_exists.mpr ⟨s, hs⟩) h hc
    have hplace : s.kind.HasPlace x := by
      intro g hg
      obtain rfl : f = g := by
        rw [hkind] at hg
        cases hg
        rfl
      exact classifyFunction_knows hf hx
    rw [← ScopeTree.home?_isSome_iff hs, hhome] at hplace
    cases hplace

/-- Takes `a` apart into `b` and `[c]`, imports `m.n` as `d` in a loop over `b`, and defines `g` in
the other side of the loop. -/
def Stmt.unpackingLoop : List Stmt :=
  [.mk .nowhere (.assign [.tuple [.name "b", .list [.name "c"]]] (.name "a")),
    .mk .nowhere (.forEach (.name "e") (.name "b")
      [.mk .nowhere (.importsFrom ⟨["m"]⟩ [⟨⟨["n"]⟩, some "d"⟩] 0)]
      [.mk .nowhere (.functionDef "g" ⟨[], none, none⟩ [])])]

/-- The theorem at a module with one function, which has the parameter `a` and this body. -/
theorem classification_covers_lowering_loop :
    (∀ e x, compile {} none [.mk .nowhere (.functionDef "f" ⟨[⟨"a", .nowhere⟩], none, none⟩
      Stmt.unpackingLoop)] = .error e → e.cause ≠ .unclassifiedName x) ∧
    ∃ f, classifyFunction ⟨[⟨"a", .nowhere⟩], none, none⟩ Stmt.unpackingLoop = .ok f ∧
      ∀ x ∈ ["b", "c", "e", "d", "g"], f.vars.Knows x := by
  refine ⟨(classification_covers_lowering {} none _).1, _, rfl, fun x hx => ?_⟩
  obtain ⟨hknows, -⟩ := (classification_covers_lowering {} none []).2
    ⟨[⟨"a", .nowhere⟩], none, none⟩ Stmt.unpackingLoop _ rfl
  exact hknows x hx

end Goward
