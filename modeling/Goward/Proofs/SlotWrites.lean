import Goward.Proofs.FlatCode
import Goward.Proofs.Growth

/-!
# Slots that code binds

The code of a body binds and unbinds slots of names, and only those that its own scope holds in slots:
reads may reach the slots of enclosing functions, stores and deletions do not. What the code of a
nested function does in its own slots is not part of this.
-/

namespace Goward

open Goward.Build Goward.Code
open ScopeTree (growsTo_treeRelation)

/-- Every slot that code binds or unbinds, at any depth of control flow, has a property. -/
def OnlyBinds (S : String → Prop) (code : List Step) : Prop :=
  ∀ a x, Step.Occurs (.action a) code → slot? a = some x → S x

namespace OnlyBinds

variable {S : String → Prop} {a b : List Step}

theorem nil : OnlyBinds S [] := fun _ _ h => absurd h Step.occurs_nil

theorem append (ha : OnlyBinds S a) (hb : OnlyBinds S b) : OnlyBinds S (a ++ b) := by
  intro act x hocc hx
  rcases Step.occurs_append.mp hocc with h | h
  · exact ha act x h hx
  · exact hb act x h hx

theorem action {a : Action} (h : ∀ x, slot? a = some x → S x) : OnlyBinds S [.action a] := by
  intro act x hocc hx
  rcases Step.occurs_single.mp hocc with heq | ⟨part, hpart, -⟩
  · cases heq
    exact h x hx
  · cases hpart

/-- A step with control structure binds what its parts bind. -/
theorem control {s : Step} (hs : ∀ a, s ≠ .action a) (h : ∀ part ∈ s.parts, OnlyBinds S part) :
    OnlyBinds S [s] := by
  intro act x hocc hx
  rcases Step.occurs_single.mp hocc with heq | ⟨part, hpart, hin⟩
  · exact absurd heq.symm (hs act)
  · exact h part hpart act x hin hx

/-- A branch or a loop binds what its sides bind. -/
theorem sides {test body : List Step} {orelse : Option (List Step)} (htest : OnlyBinds S test)
    (hbody : OnlyBinds S body) (horelse : ∀ part ∈ orelse.toList, OnlyBinds S part) :
    ∀ part ∈ test :: body :: orelse.toList, OnlyBinds S part := by
  intro part hpart
  rcases List.mem_cons.mp hpart with rfl | hpart
  · exact htest
  · rcases List.mem_cons.mp hpart with rfl | hpart
    · exact hbody
    · exact horelse part hpart

/-- Linear code binds the slots that structured code binds. -/
theorem linear (h : OnlyBinds S a) {act : Action} {x : String} {l : Labels}
    (hact : .action act ∈ (Step.linearAll a l).1) (hx : slot? act = some x) : S x := by
  have hplain : .action act ∈ Instr.plain (Step.linearAll a l).1 :=
    List.mem_filter.mpr ⟨hact, rfl⟩
  rw [Step.plain_linearAll] at hplain
  obtain ⟨s, hs, hinstr⟩ := List.mem_filterMap.mp hplain
  have heq : s = .action act := by
    cases s with
    | action _ =>
      cases hinstr
      rfl
    | suspend _ | ret _ | function _ _ _ _ | classBody _ _ _ _ _ | breakLoop | continueLoop
    | branch _ _ _ _ | whileLoop _ _ _ _ | forLoop _ _ _ _ _ => cases hinstr
  subst heq
  exact h act x (Step.occurs_of_mem_flatAll a hs) hx

end OnlyBinds

/-- A scope holds only names with a property in slots. -/
structure ScopeTree.SlotsIn (S : String → Prop) (id : Nat) (t : ScopeTree) : Prop where
  inTree : (t.scope? id).isSome
  slots : ∀ x, t.home? id x = some .slot → S x

theorem ScopeTree.SlotsIn.grows {S : String → Prop} {id : Nat} {t u : ScopeTree}
    (h : t.SlotsIn S id) (hg : t.GrowsTo u) : u.SlotsIn S id where
  inTree := hg.isSome h.inTree
  slots x hx := by
    rw [hg.home?_eq h.inTree] at hx
    exact h.slots x hx

/-- In a scope that holds only names with a property in slots, the build binds only such slots and
its value has the property `P`. -/
def BindsIn {α : Type} (S : String → Prop) (id : Nat) (P : α → Prop) (b : Build α) : Prop :=
  ∀ t r, t.SlotsIn S id → b.run t = .ok r → r.tree.SlotsIn S id ∧ OnlyBinds S r.code ∧ P r.value

/-- In a scope that holds only names with a property in slots, the build binds only such slots. -/
def Binds {α : Type} (S : String → Prop) (id : Nat) (b : Build α) : Prop :=
  BindsIn S id (fun _ => True) b

namespace BindsIn

variable {α β : Type} {S : String → Prop} {id : Nat} {P : α → Prop} {R : β → Prop}

theorem bind {b : Build α} {f : α → Build β} (hb : BindsIn S id P b)
    (hf : ∀ a, P a → BindsIn S id R (f a)) : BindsIn S id R (b >>= f) := by
  intro t r ht h
  obtain ⟨first, h₁, second, h₂, rfl⟩ := run_bind_ok.mp h
  obtain ⟨hslots, hcode, hvalue⟩ := hb t first ht h₁
  obtain ⟨hslots', hcode', hvalue'⟩ := hf first.value hvalue first.tree second hslots h₂
  exact ⟨hslots', hcode.append hcode', hvalue'⟩

theorem pure {a : α} (h : P a) : BindsIn S id P (pure a) := by
  intro t r ht hr
  cases hr
  exact ⟨ht, .nil, h⟩

theorem codeOf {b : Build Unit} (h : Binds S id b) : BindsIn S id (OnlyBinds S) (Build.codeOf b) := by
  intro t r ht hr
  obtain ⟨inner, hi, rfl⟩ := run_codeOf_ok.mp hr
  obtain ⟨hslots, hcode, -⟩ := h t inner ht hi
  exact ⟨hslots, .nil, hcode⟩

theorem collect {b : Build α} (h : Binds S id b) :
    BindsIn S id (fun p => OnlyBinds S p.2) (Build.collect b) := by
  intro t r ht hr
  obtain ⟨inner, hi, rfl⟩ := run_collect_ok.mp hr
  obtain ⟨hslots, hcode, -⟩ := h t inner ht hi
  exact ⟨hslots, .nil, hcode⟩

end BindsIn

namespace Binds

variable {α β : Type} {S : String → Prop} {id : Nat}

theorem bind {b : Build α} {f : α → Build β} (hb : Binds S id b) (hf : ∀ a, Binds S id (f a)) :
    Binds S id (b >>= f) :=
  BindsIn.bind hb fun a _ => hf a

/-- Code that was put aside binds only such slots if it is put down later. -/
theorem after {P : α → Prop} {b : Build α} {f : α → Build β} (hb : BindsIn S id P b)
    (hf : ∀ a, P a → Binds S id (f a)) : Binds S id (b >>= f) :=
  BindsIn.bind hb hf

theorem emit {s : Step} (h : OnlyBinds S [s]) : Binds S id (Build.emit s) := by
  intro t r ht hr
  cases hr
  exact ⟨ht, h, trivial⟩

theorem fail (c : Cause) : Binds S id (Build.fail c : Build α) := nofun

/-- What does no more than let the tree grow. -/
theorem silent {b : Build α} (h : ∀ t r, b.run t = .ok r → t.GrowsTo r.tree ∧ r.code = []) :
    Binds S id b := by
  intro t r ht hr
  obtain ⟨hg, hcode⟩ := h t r hr
  exact ⟨ht.grows hg, hcode ▸ .nil, trivial⟩

theorem onTree {f : ScopeTree → α × ScopeTree} (hf : ∀ t : ScopeTree, t.GrowsTo (f t).2) :
    Binds S id (Build.onTree f) := by
  refine silent fun t r hr => ?_
  cases hr
  exact ⟨hf t, rfl⟩

theorem lift (x : Except Error α) : Binds S id (Build.lift x) := by
  refine silent fun t r hr => ?_
  obtain ⟨a, -, rfl⟩ := run_lift_ok.mp hr
  exact ⟨.refl t, rfl⟩

theorem require (b : Bool) (c : Cause) : Binds S id (Build.require b c) := by
  refine silent fun t r hr => ?_
  obtain ⟨-, rfl⟩ := run_require_ok.mp hr
  exact ⟨.refl t, rfl⟩

theorem locate {span : Span} {b : Build α} (h : Binds S id b) : Binds S id (Build.locate span b) :=
  fun t r ht hr => h t r ht (run_locate_ok.mp hr)

end Binds

/-- The evaluation of expressions binds no slot. -/
theorem binds (S : String → Prop) (id : Nat) : EvaluationProperty fun b => Binds S id b where
  pure _ := .pure trivial
  bind := .bind
  tree := .silent fun t r hr => by
    cases hr
    exact ⟨.refl t, rfl⟩
  plain a ha := .emit (.action fun x hx => by
    rw [ha] at hx
    cases hx)
  alloc i type := .onTree fun t => growsTo_treeRelation.alloc t i type
  free i v := .silent fun t r hr => by
    obtain ⟨u, hu, rfl⟩ := run_free_ok.mp hr
    exact ⟨growsTo_treeRelation.free hu, rfl⟩
  intern s := .onTree fun t => growsTo_treeRelation.intern t s
  addImport path := .onTree fun t => growsTo_treeRelation.addImport t path
  addNative path := .onTree fun t => growsTo_treeRelation.addNative t path
  requireGenerator i := .silent fun t r hr => by
    obtain ⟨first, h₁, second, h₂, rfl⟩ := run_bind_ok.mp hr
    cases h₁
    obtain ⟨-, rfl⟩ := run_require_ok.mp h₂
    exact ⟨.refl t, rfl⟩
  emitSuspend v := .emit (.control (by simp) (by simp [Step.parts]))

variable {S : String → Prop} {id : Nat}

/-! ### Names and targets -/

/-- The tree that is read holds only such names in slots. -/
theorem BindsIn.tree : BindsIn S id (fun t => ∀ x, t.home? id x = some .slot → S x) Build.tree := by
  intro t r ht hr
  cases hr
  exact ⟨ht, .nil, ht.slots⟩

/-- An action on one slot binds no other. -/
theorem Binds.slot {a : Action} {x : String} (hx : S x) (ha : slot? a = some x) :
    Binds S id (act a) := by
  refine .emit (.action fun y hy => ?_)
  rw [ha] at hy
  cases hy
  exact hx

theorem storeName_binds (x : String) (v : Value) : Binds S id (storeName id x v) := by
  refine .after .tree fun t ht => ?_
  cases hhome : t.home? id x with
  | none => exact .fail _
  | some home =>
    cases home with
    | globals | classBody =>
      exact .bind ((binds S id).intern x) fun key => (binds S id).plain _ rfl
    | slot => exact .slot (ht x hhome) rfl

theorem deleteName_binds (x : String) : Binds S id (deleteName id x) := by
  refine .after .tree fun t ht => ?_
  cases hhome : t.home? id x with
  | none => exact .fail _
  | some home =>
    cases home with
    | globals | classBody =>
      exact .bind ((binds S id).intern x) fun key => (binds S id).plain _ rfl
    | slot => exact .bind ((binds S id).plain _ rfl) fun _ => .slot (ht x hhome) rfl

theorem unpack_binds (v : Value) (n : Nat) {store : Temp → Build Unit}
    (hs : ∀ items, Binds S id (store items)) : Binds S id (unpack id v n store) :=
  .bind ((binds S id).acquire id _) fun items =>
    .bind ((binds S id).plain _ rfl) fun _ =>
      .bind ((binds S id).plain _ rfl) fun _ =>
        .bind (hs items) fun _ => (binds S id).release id items

mutual

theorem storeInto_binds (v : Value) : (e : Expr) → Binds S id (storeInto id v e)
  | .name x => storeName_binds x v
  | .attr obj _ =>
    .bind ((binds S id).lowerExpr id obj) fun _ =>
      .bind ((binds S id).intern _) fun _ =>
        .bind ((binds S id).plain _ rfl) fun _ => (binds S id).releaseValue id _
  | .tuple elts => unpack_binds v elts.length fun items => storeItems_binds items 0 elts
  | .list elts => unpack_binds v elts.length fun items => storeItems_binds items 0 elts
  | .str _ | .int _ | .call _ _ | .binop _ _ _ | .yield _ => .fail _

theorem storeItems_binds (items : Temp) :
    (index : Nat) → (es : List Expr) → Binds S id (storeItems id items index es)
  | _, [] => (binds S id).pure ()
  | index, e :: rest =>
    .bind (storeInto_binds (.item items index) e) fun _ =>
      storeItems_binds items (index + 1) rest

end

theorem storeIntoAll_binds (v : Value) (es : List Expr) : Binds S id (storeIntoAll id v es) := by
  induction es with
  | nil => exact (binds S id).pure ()
  | cons e rest ih => exact .bind (storeInto_binds v e) fun _ => ih

theorem deleteAll_binds : (es : List Expr) → Binds S id (deleteAll id es)
  | [] => (binds S id).pure ()
  | .name x :: rest => .bind (deleteName_binds x) fun _ => deleteAll_binds rest
  | .str _ :: _ | .int _ :: _ | .tuple _ :: _ | .list _ :: _ | .attr _ _ :: _ | .call _ _ :: _
  | .binop _ _ _ :: _ | .yield _ :: _ => .fail _

theorem loadModule_binds (path : ModulePath) : Binds S id (loadModule id path) :=
  .bind (.require _ _) fun _ => .bind ((binds S id).addPackages _ _) fun _ =>
    (binds S id).callInto id _ _

theorem importModule_binds (a : Alias) : Binds S id (importModule id a) := by
  refine .bind (loadModule_binds a.path) fun modules => ?_
  split
  · exact .bind (storeName_binds _ _) fun _ => (binds S id).release id modules
  · exact .bind (storeName_binds _ _) fun _ => (binds S id).release id modules
  · exact .bind (.fail _) fun _ => (binds S id).release id modules

theorem importModules_binds (names : List Alias) : Binds S id (importModules id names) := by
  induction names with
  | nil => exact (binds S id).pure ()
  | cons a rest ih => exact .bind (importModule_binds a) fun _ => ih

theorem importMember_binds (x : String) (c : Call) : Binds S id (importMember id x c) :=
  .bind ((binds S id).callInto id _ c) fun member =>
    .bind (storeName_binds x _) fun _ => (binds S id).release id member

theorem importMembers_binds (module : Value) (names : List Alias) :
    Binds S id (importMembers id module names) := by
  induction names with
  | nil => exact (binds S id).pure ()
  | cons a rest ih =>
    unfold importMembers
    split
    · exact ih
    · exact .bind ((binds S id).intern _) fun _ =>
        .bind (importMember_binds _ _) fun _ => ih

theorem importNativeMembers_binds (reflect package : Package) (names : List Alias) :
    Binds S id (importNativeMembers id reflect package names) := by
  induction names with
  | nil => exact (binds S id).pure ()
  | cons a rest ih =>
    unfold importNativeMembers
    split
    · exact ih
    · exact .bind (importMember_binds _ _) fun _ => ih

theorem importFrom_binds (path : ModulePath) (names : List Alias) (level : Nat) :
    Binds S id (importFrom id path names level) := by
  refine .bind (.require _ _) fun _ => ?_
  split
  · exact .bind (.require _ _) fun _ =>
      .bind ((binds S id).addNative _) fun package =>
        .bind ((binds S id).addNative _) fun reflect =>
          importNativeMembers_binds reflect package names
  · exact .bind (loadModule_binds path) fun modules =>
      .bind (importMembers_binds _ names) fun _ => (binds S id).release id modules

theorem updateName_binds (x : String) (op : BinOp) (value : Expr) :
    Binds S id (updateName id x op value) :=
  .bind ((binds S id).readName id x) fun _ =>
    .bind ((binds S id).lowerExpr id value) fun _ =>
      .bind ((binds S id).callInto id _ _) fun result =>
        .bind ((binds S id).releaseAll id _) fun _ =>
          .bind (storeName_binds x _) fun _ => (binds S id).release id result

/-- A step that ends, leaves or makes a body binds no slot by itself. -/
theorem OnlyBinds.bare {s : Step} (hs : ∀ a, s ≠ .action a) (hparts : s.parts = []) :
    OnlyBinds S [s] := by
  refine .control hs fun part hpart => ?_
  rw [hparts] at hpart
  cases hpart

theorem ret_binds (v : Option Value) : Binds S id (emit (.ret v)) := .emit (.bare (by simp) rfl)

theorem lowerReturn_binds (value : Option Expr) : Binds S id (lowerReturn id value) := by
  refine .bind (binds S id).tree fun t => ?_
  split
  · exact .fail _
  · split
    · exact ret_binds _
    · exact .fail _
    · exact ret_binds _
    · exact .bind ((binds S id).lowerExpr id _) fun _ =>
        .bind (ret_binds _) fun _ => (binds S id).releaseValue id _

/-- The body of a nested definition is code of another scope. -/
theorem nested_binds {name : String} {kind : ScopeKind} {returnsNone : Bool}
    {body : Nat → Build Unit} {rest : Nat → List Step → Build Unit}
    (hbody : ∀ inner, Keeps ScopeTree.GrowsTo (body inner))
    (hrest : ∀ inner steps, Binds S id (rest inner steps)) :
    Binds S id (onTree (·.push id name kind) >>= fun inner =>
      bodyWithEnd returnsNone (body inner) >>= rest inner) := by
  have hpush : Binds S id (onTree (·.push id name kind)) :=
    .onTree fun t => growsTo_treeRelation.push t id name kind
  refine .bind hpush fun inner => .bind (.silent fun t r hr => ?_)
    fun steps => hrest inner steps
  refine ⟨bodyWithEnd_keeps growsTo_treeRelation returnsNone (hbody inner) t r hr, ?_⟩
  obtain ⟨_, -, rfl⟩ := run_codeOf_ok.mp hr
  rfl

theorem defineFunction_binds (name : String) (params : Parameters) (f : FunctionVars)
    {body : Nat → Build Unit} (hbody : ∀ inner, Keeps ScopeTree.GrowsTo (body inner)) :
    Binds S id (defineFunction id name params f body) :=
  nested_binds hbody fun inner _ => .bind ((binds S id).declaredTemps inner) fun _ =>
    .bind ((binds S id).acquire id _) fun fn =>
      .bind (.emit (.bare (by simp) rfl)) fun _ =>
        .bind (storeName_binds name _) fun _ => (binds S id).release id fn

theorem defineClass_binds (cx : Context) (name : String) (bases : List Expr) (vars : VarMap)
    {body : Nat → Build Unit} (hbody : ∀ inner, Keeps ScopeTree.GrowsTo (body inner)) :
    Binds S id (defineClass cx id name bases vars body) :=
  .bind ((binds S id).lowerExprs id bases) fun vs =>
    .bind ((binds S id).acquire id _) fun _ =>
      .bind ((binds S id).plain _ rfl) fun _ =>
        .bind ((binds S id).releaseAll id vs) fun _ =>
          .bind ((binds S id).acquire id _) fun _ =>
            .bind ((binds S id).plain _ rfl) fun _ =>
              .bind ((binds S id).intern _) fun _ =>
                .bind ((binds S id).plain _ rfl) fun _ => nested_binds hbody fun inner _ =>
                  .bind ((binds S id).declaredTemps inner) fun _ =>
                    .bind ((binds S id).acquire id _) fun _ =>
                      .bind (.emit (.bare (by simp) rfl)) fun _ =>
                        .bind ((binds S id).plain _ rfl) fun _ =>
                          .bind ((binds S id).intern _) fun _ =>
                            .bind ((binds S id).callInto id _ _) fun _ =>
                              .bind (storeName_binds name _) fun _ =>
                                (binds S id).releaseAll id _

mutual

theorem lowerStmt_binds (cx : Context) (inLoop : Bool) :
    (s : Stmt) → Binds S id (lowerStmt cx id inLoop s)
  | .mk span kind =>
    .bind ((binds S id).annotate cx span) fun _ => .locate (lowerKind_binds cx inLoop kind)

theorem lowerKind_binds (cx : Context) (inLoop : Bool) :
    (kind : StmtKind) → Binds S id (lowerKind cx id inLoop kind)
  | .assign targets value =>
    .bind ((binds S id).lowerExpr id value) fun v =>
      .bind (storeIntoAll_binds v targets) fun _ => (binds S id).releaseValue id v
  | .augAssign (.name x) op value => updateName_binds x op value
  | .augAssign (.str _) _ _ | .augAssign (.int _) _ _ | .augAssign (.tuple _) _ _
  | .augAssign (.list _) _ _ | .augAssign (.attr _ _) _ _ | .augAssign (.call _ _) _ _
  | .augAssign (.binop _ _ _) _ _ | .augAssign (.yield _) _ _ => .fail _
  | .delete targets => deleteAll_binds targets
  | .global _ => (binds S id).pure ()
  | .imports names => importModules_binds names
  | .importsFrom path names level => importFrom_binds path names level
  | .functionDef name params body =>
    .bind (.lift _) fun f => defineFunction_binds name params f fun inner =>
      lowerBody_keeps growsTo_treeRelation cx inner false body
  | .classDef name bases body =>
    .bind (.lift _) fun vars => defineClass_binds cx name bases vars fun inner =>
      lowerBody_keeps growsTo_treeRelation cx inner false body
  | .forEach target iter body orelse =>
    .bind ((binds S id).lowerExpr id iter) fun v =>
      .bind ((binds S id).callInto id _ _) fun iterator =>
        .bind ((binds S id).releaseValue id v) fun _ => .bind ((binds S id).acquire id _) fun item =>
          .after (.codeOf (.bind (storeInto_binds _ target) fun _ =>
            (binds S id).release id item)) fun _ hbind =>
            .after (.codeOf (lowerBody_binds cx true body)) fun _ hsteps =>
              .after (lowerElse_binds cx inLoop orelse) fun _ hother =>
                .bind (.emit (.control (by simp) (.sides hbind hsteps hother))) fun _ =>
                  (binds S id).release id iterator
  | .whileLoop test body orelse | .branch test body orelse =>
    .after (.collect ((binds S id).lowerTest id test)) fun ⟨tested, _⟩ hcheck =>
      .after (.codeOf (.bind ((binds S id).releaseTest id tested) fun _ =>
        lowerBody_binds cx _ body)) fun _ hsteps =>
          .after (lowerElse_binds cx inLoop orelse) fun _ hother =>
            .emit (.control (by simp) (.sides hcheck hsteps hother))
  | .withItems _ _ => .fail _
  | .tryExcept _ _ _ _ => .fail _
  | .ret value => lowerReturn_binds value
  | .expr value => .bind ((binds S id).lowerExpr id value) fun v => (binds S id).releaseValue id v
  | .breakLoop => by
    unfold lowerKind
    split
    · exact .emit (.bare (by simp) rfl)
    · exact .fail _
  | .continueLoop => by
    unfold lowerKind
    split
    · exact .emit (.bare (by simp) rfl)
    · exact .fail _
  | .pass => (binds S id).pure ()

theorem lowerElse_binds (cx : Context) (inLoop : Bool) : (body : List Stmt) →
    BindsIn S id (fun other => ∀ part ∈ other.toList, OnlyBinds S part)
      (lowerElse cx id inLoop body)
  | [] => BindsIn.pure nofun
  | s :: rest => by
    have hcode : Binds S id (do lowerStmt cx id inLoop s; lowerBody cx id inLoop rest) :=
      .bind (lowerStmt_binds cx inLoop s) fun _ => lowerBody_binds cx inLoop rest
    refine BindsIn.bind (.codeOf hcode) fun steps hsteps => BindsIn.pure ?_
    intro part hpart
    obtain rfl := List.mem_singleton.mp hpart
    exact hsteps

theorem lowerBody_binds (cx : Context) (inLoop : Bool) :
    (body : List Stmt) → Binds S id (lowerBody cx id inLoop body)
  | [] => (binds S id).pure ()
  | s :: rest =>
    .bind (lowerStmt_binds cx inLoop s) fun _ => lowerBody_binds cx inLoop rest

end

end Goward
