import Goward.Proofs.Agreement
import Goward.Proofs.Registration
import Goward.Proofs.Writing

/-!
# Bodies and what is around them

The body of a function or a class is lowered into a text of its own: the declarations of its scratch
variables, and the loop that dispatches to its code. This text depends on the options, the source
text and the chain of the scope that is entered. Nothing else of the module leaks into it: the scope
starts with a pool of its own, references to strings show the strings, and the names of packages are
made from their paths, except that of the support runtime, which is registered before all others.
-/

namespace Goward

open Goward.Build Goward.Code Goward.Layout

/-- Code is compared as it stands, in units with the same options. -/
def exactly (o : Options) : Comparison where
  Same := Eq
  Related r r' := r.Canonical o ∧ r'.Canonical o
  refl _ := rfl
  append := by
    rintro a _ b _ rfl rfl
    rfl
  branch := by
    rintro test _ body _ (_ | orelse) (_ | orelse') cond rfl rfl horelse
    · rfl
    · exact horelse.elim
    · exact horelse.elim
    · exact congrArg (fun orelse => [Step.branch test cond body (some orelse)]) horelse
  whileLoop := by
    rintro test _ body _ (_ | orelse) (_ | orelse') cond rfl rfl horelse
    · rfl
    · exact horelse.elim
    · exact horelse.elim
    · exact congrArg (fun orelse => [Step.whileLoop test cond body (some orelse)]) horelse
  forLoop := by
    rintro bind _ body _ (_ | orelse) (_ | orelse') iterator item rfl rfl horelse
    · rfl
    · exact horelse.elim
    · exact horelse.elim
    · exact congrArg (fun orelse => [Step.forLoop iterator item bind body (some orelse)]) horelse
  function := by
    rintro body _ dst header temps rfl
    rfl
  classBody := by
    rintro body _ dst name names temps rfl
    rfl
  intern s h := ⟨h.1.intern s, h.2.intern s⟩
  libroot h := h.1.libroot.trans h.2.libroot.symm
  addNative path h := ⟨(h.1.addNative path).1.trans (h.2.addNative path).1.symm,
    (h.1.addNative path).2.1, (h.2.addNative path).2.1⟩

/-- Everything that is put down in one context is the same in that context. -/
theorem sameContext_refl (cx : Context) (o : Options) : SameContext (exactly o) o cx cx where
  options := rfl
  annotate i j span := by
    unfold annotate
    split
    · exact .pure rfl
    · split
      · exact .pure rfl
      · exact .act _

/-- The text of a body by itself. -/
structure RenderedBody where
  /-- What every body declares, and its scratch variables. -/
  declarations : String
  /-- The loop that dispatches to the code. -/
  dispatch : String

/-- Lowers the body of a scope and renders it. -/
def renderBody (cx : Context) (id : Nat) (body : List Stmt) : Build RenderedBody := do
  let isGenerator := (((← tree).scope? id).bind (·.function?)).map (·.isGenerator)
  let steps ← bodyWithEnd (isGenerator == some false) (lowerBody cx id false body)
  let temps ← declaredTemps id
  let code := Step.linearAll steps {}
  return {
    declarations := render 0 (declarations temps)
    dispatch := render 0 (resumable code.2.checkpoints (codeOps cx.options.filename code.1)) }

theorem renderBody_agree (cx : Context) (o : Options) (i j : Nat) (body : List Stmt) :
    Agree (exactly o) o i j (renderBody cx i body) (renderBody cx j body) Eq := by
  refine .ofTree fun t u htu => ?_
  rw [htu.isGenerator]
  refine (bodyWithEnd_agree _ (lowerBody_agree (sameContext_refl cx o) i j false body)).andThen
    fun steps => ?_
  refine .andThen ?_ fun temps => .pure rfl
  refine .ofTree fun t u htu => .pure ?_
  exact congrArg (·.pool.temps) htu.resources

/-- The rendered body of a scope that is entered depends on the chain around it and its kind. -/
theorem renderBody_entered (cx : Context) {o : Options} {t u : ScopeTree} {i j : Nat}
    (ht : t.Arises o) (hu : u.Arises o) (hi : (t.scope? i).isSome) (hj : (u.scope? j).isSome)
    (hnames : (t.chain i).SameNames (u.chain j)) (name name' : String) {kind : ScopeKind}
    (hkind : kind ≠ .module) (body : List Stmt) :
    ((renderBody cx (t.push i name kind).1 body).run (t.push i name kind).2).map (·.value) =
      ((renderBody cx (u.push j name' kind).1 body).run (u.push j name' kind).2).map
        (·.value) := by
  refine (renderBody_agree cx o _ _ body _ _ (.entered ht hu hi hj hnames ?_ name name'
    hkind)).map_value
  exact ⟨ht.canonical, hu.canonical⟩

/-! ### Where lowering comes to -/

/-- A statement with blocks: what is lowered before them. -/
structure Compound where
  head : Build Unit
  /-- Whether the body is that of a loop. -/
  loops : Bool
  body : List Stmt
  orelse : List Stmt

/-- A definition: what its scope is, and what is lowered before the body is entered. -/
structure Definition where
  kind : Except Error ScopeKind
  opening : Build Unit
  name : String
  body : List Stmt

namespace StmtKind

/-- The blocks of a statement. -/
def compound? (id : Nat) : StmtKind → Option Compound
  | .branch test body orelse =>
    some ⟨do releaseTest id (← lowerTest id test), false, body, orelse⟩
  | .whileLoop test body orelse =>
    some ⟨do releaseTest id (← lowerTest id test), true, body, orelse⟩
  | .forEach target iter body orelse =>
    let head := do
      let v ← lowerExpr id iter
      discard (callInto id Temp.objectType (.iter v))
      releaseValue id v
      let item ← acquire id Temp.objectType
      storeInto id (.temp item) target
      release id item
    some ⟨head, true, body, orelse⟩
  | _ => none

/-- The definition that a statement is. -/
def definition? (cx : Context) (id : Nat) : StmtKind → Option Definition
  | .functionDef name params body =>
    some ⟨(classifyFunction params body).map .function, return (), name, body⟩
  | .classDef name bases body =>
    let opening := do
      let vs ← lowerExprs id bases
      let tuple ← acquire id Temp.objectType
      act (.construct tuple (.tuple vs))
      releaseAll id vs
      let names ← acquire id "*πg.Dict"
      act (.construct names .dict)
      let module ← intern cx.options.moduleName
      act (.perform (.setModule names module))
    some ⟨(classifyClass body).map (.classBody ·.globals), opening, name, body⟩
  | _ => none

end StmtKind

/-- While a module is compiled, lowering comes to statements in a scope, with the tree as it is by
then: those of the module, those behind a statement that has been lowered, the blocks of a statement
whose head has been lowered, and the body of a definition that is entered. -/
inductive Meets (cx : Context) (module : List Stmt) : ScopeTree → Nat → Bool → List Stmt → Prop
  | start : Meets cx module (initialTree cx.options) ScopeTree.moduleId false module
  | next {t : ScopeTree} {id : Nat} {inLoop : Bool} {s : Stmt} {rest : List Stmt} {r : Built Unit} :
    Meets cx module t id inLoop (s :: rest) → (lowerStmt cx id inLoop s).run t = .ok r →
    Meets cx module r.tree id inLoop rest
  | body {t : ScopeTree} {id : Nat} {inLoop : Bool} {s : Stmt} {rest : List Stmt} {c : Compound}
    {r : Built Unit} :
    Meets cx module t id inLoop (s :: rest) → s.kind.compound? id = some c →
    c.head.run t = .ok r → Meets cx module r.tree id (c.loops || inLoop) c.body
  | orelse {t : ScopeTree} {id : Nat} {inLoop : Bool} {s : Stmt} {rest : List Stmt} {c : Compound}
    {r r' : Built Unit} :
    Meets cx module t id inLoop (s :: rest) → s.kind.compound? id = some c →
    c.head.run t = .ok r → (lowerBody cx id (c.loops || inLoop) c.body).run r.tree = .ok r' →
    Meets cx module r'.tree id inLoop c.orelse
  | enter {t : ScopeTree} {id : Nat} {inLoop : Bool} {s : Stmt} {rest : List Stmt} {d : Definition}
    {kind : ScopeKind} {r : Built Unit} :
    Meets cx module t id inLoop (s :: rest) → s.kind.definition? cx id = some d →
    d.kind = .ok kind → d.opening.run t = .ok r →
    Meets cx module (r.tree.push id d.name kind).2 (r.tree.push id d.name kind).1 false d.body

namespace Meets

variable {cx : Context} {module : List Stmt}

/-- What agrees with itself goes on from trees that arise to trees that arise. -/
theorem arises_of_agree {α : Type} {V : α → α → Prop} {o : Options} {i : Nat} {b : Build α}
    {t : ScopeTree} {r : Built α} (hb : Agree (exactly o) o i i b b V) (ht : t.Arises o)
    (hi : (t.scope? i).isSome) (hr : b.run t = .ok r) :
    r.tree.Arises o ∧ (r.tree.scope? i).isSome := by
  have hrun := hb t t ⟨ht, ht, hi, hi, .refl _, rfl, rfl, ht.canonical, ht.canonical⟩
  rw [hr] at hrun
  cases hrun with
  | ok _ _ hp => exact ⟨hp.left, hp.inLeft⟩

theorem head_agree {o : Options} {i : Nat} {k : StmtKind} {c : Compound}
    (hc : k.compound? i = some c) : Agree (exactly o) o i i c.head c.head Eq := by
  unfold StmtKind.compound? at hc
  split at hc
  · cases hc
    exact (lowerTest_agree _).andThen fun tested => releaseTest_agree tested
  · cases hc
    exact (lowerTest_agree _).andThen fun tested => releaseTest_agree tested
  · cases hc
    exact (lowerExpr_agree _).andThen fun v => ((Agree.callInto _ _).andThen
      fun _ => .pure rfl).andThen fun _ => (Agree.releaseValue v).andThen fun _ =>
      (Agree.acquire _).andThen fun item => (storeInto_agree _ _).andThen fun _ => .release item
  · cases hc

theorem opening_agree {o : Options} {i : Nat} {k : StmtKind} {d : Definition}
    (hd : k.definition? cx i = some d) : Agree (exactly o) o i i d.opening d.opening Eq := by
  unfold StmtKind.definition? at hd
  split at hd
  · cases hd
    exact .pure rfl
  · cases hd
    exact (lowerExprs_agree _).andThen fun _ =>
      (Agree.acquire _).andThen fun _ => (Agree.act _).andThen fun _ =>
      (Agree.releaseAll _).andThen fun _ => (Agree.acquire _).andThen fun _ =>
      (Agree.act _).andThen fun _ => (Agree.intern _).andThen fun _ => .act _
  · cases hd

theorem kind_ne_module {i : Nat} {k : StmtKind} {d : Definition} {kind : ScopeKind}
    (hd : k.definition? cx i = some d) (hkind : d.kind = .ok kind) : kind ≠ .module := by
  rintro rfl
  unfold StmtKind.definition? at hd
  split at hd
  · next name params body =>
    cases hd
    cases hf : classifyFunction params body <;> rw [hf] at hkind <;> cases hkind
  · next name bases body =>
    cases hd
    cases hf : classifyClass body <;> rw [hf] at hkind <;> cases hkind
  · cases hd

/-- Lowering comes to statements in scopes of trees that arise. -/
theorem arises {t : ScopeTree} {id : Nat} {inLoop : Bool} {body : List Stmt}
    (h : Meets cx module t id inLoop body) : t.Arises cx.options ∧ (t.scope? id).isSome := by
  induction h with
  | start => exact ⟨.initial, initialTree_isSome _⟩
  | next _ hr ih =>
    exact arises_of_agree (lowerStmt_agree (sameContext_refl cx _) _ _ _ _) ih.1 ih.2 hr
  | body _ hc hr ih => exact arises_of_agree (head_agree hc) ih.1 ih.2 hr
  | orelse _ hc hr hbody ih =>
    obtain ⟨ht, hid⟩ := arises_of_agree (head_agree hc) ih.1 ih.2 hr
    exact arises_of_agree (lowerBody_agree (sameContext_refl cx _) _ _ _ _) ht hid hbody
  | enter _ hd hkind hr ih =>
    obtain ⟨ht, hid⟩ := arises_of_agree (opening_agree hd) ih.1 ih.2 hr
    exact ⟨.push _ ht hid (kind_ne_module hd hkind), ScopeTree.scope?_push_isSome.mpr (.inr rfl)⟩

end Meets

/-- While a module is compiled, the body of a definition is entered from a scope. -/
def Enters (cx : Context) (module : List Stmt) (t : ScopeTree) (id : Nat) (name : String)
    (kind : ScopeKind) (body : List Stmt) : Prop :=
  ∃ u inLoop s rest d code, Meets cx module u id inLoop (s :: rest) ∧
    s.kind.definition? cx id = some d ∧ d.kind = .ok kind ∧ d.opening.run u = .ok ⟨(), code, t⟩ ∧
    d.name = name ∧ d.body = body

theorem Enters.arises {cx : Context} {module body : List Stmt} {t : ScopeTree} {id : Nat}
    {name : String} {kind : ScopeKind} (h : Enters cx module t id name kind body) :
    t.Arises cx.options ∧ (t.scope? id).isSome ∧ kind ≠ .module := by
  obtain ⟨u, inLoop, s, rest, d, code, hmeets, hd, hkind, hr, -, -⟩ := h
  obtain ⟨hu, hid⟩ := hmeets.arises
  obtain ⟨ht, hid⟩ := Meets.arises_of_agree (Meets.opening_agree hd) hu hid hr
  exact ⟨ht, hid, Meets.kind_ne_module hd hkind⟩

/-- The code of a definition is independent of its surroundings. If the body of a function or a class
is entered in two modules, or twice in one, and the scopes around it know the same names to live in
the same places, then it is rendered to the same text in both, or fails with the same error in both.
-/
theorem body_independent {cx : Context} {module module' body : List Stmt} {t u : ScopeTree}
    {i j : Nat} {name name' : String} {kind : ScopeKind}
    (h : Enters cx module t i name kind body) (h' : Enters cx module' u j name' kind body)
    (hnames : (t.chain i).SameNames (u.chain j)) :
    ((renderBody cx (t.push i name kind).1 body).run (t.push i name kind).2).map (·.value) =
      ((renderBody cx (u.push j name' kind).1 body).run (u.push j name' kind).2).map
        (·.value) := by
  obtain ⟨ht, hi, hkind⟩ := h.arises
  obtain ⟨hu, hj, -⟩ := h'.arises
  exact renderBody_entered cx ht hu hi hj hnames name name' hkind body

/-- Defines a function that returns a name of the module. -/
def Stmt.globalReader : Stmt :=
  .mk .nowhere (.functionDef "f" ⟨[], none, none⟩ [.mk .nowhere (.ret (some (.name "x")))])

/-- Defines a class whose body imports a package. -/
def Stmt.importingClass : Stmt :=
  .mk .nowhere (.classDef "C" [] [.mk .nowhere (.imports [⟨⟨["os"]⟩, none⟩])])

theorem body_independent_behind_class :
    ∃ t u kind body,
      Enters ⟨{}, none⟩ [.globalReader] t 0 "f" kind body ∧
      Enters ⟨{}, none⟩ [.importingClass, .globalReader] u 0 "f" kind body ∧
      (t.chain 0).SameNames (u.chain 0) ∧
      ((renderBody ⟨{}, none⟩ (t.push 0 "f" kind).1 body).run (t.push 0 "f" kind).2).map
          (·.value) =
        ((renderBody ⟨{}, none⟩ (u.push 0 "f" kind).1 body).run (u.push 0 "f" kind).2).map
          (·.value) := by
  obtain ⟨r, hr⟩ : ∃ r, (lowerStmt ⟨{}, none⟩ 0 false .importingClass).run (initialTree {}) =
      .ok r := ok_of_toBool (by decide +kernel)
  have hfirst : Enters ⟨{}, none⟩ [.globalReader] (initialTree {}) 0 "f"
      (.function ⟨{}, false⟩) [.mk .nowhere (.ret (some (.name "x")))] :=
    ⟨_, _, _, _, _, _, .start, rfl, by decide +kernel, rfl, rfl, rfl⟩
  have hsecond : Enters ⟨{}, none⟩ [.importingClass, .globalReader] r.tree 0 "f"
      (.function ⟨{}, false⟩) [.mk .nowhere (.ret (some (.name "x")))] :=
    ⟨_, _, _, _, _, _, .next .start hr, rfl, by decide +kernel, rfl, rfl, rfl⟩
  have hnames : ((initialTree {}).chain 0).SameNames (r.tree.chain 0) := by
    have hgrows := lowerStmt_keeps ScopeTree.growsTo_treeRelation ⟨{}, none⟩ 0 false _ _ r hr
    rw [hgrows.chain_eq hfirst.arises.1.rooted hsecond.arises.1.rooted 0 (initialTree_isSome {})]
    exact .refl _
  exact ⟨_, _, _, _, hfirst, hsecond, hnames, body_independent hfirst hsecond hnames⟩

end Goward
