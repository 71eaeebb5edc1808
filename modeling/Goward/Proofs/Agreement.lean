import Goward.Proofs.LoweringLeases
import Goward.Proofs.ScopeChain

/-!
# Agreement of two runs

The same piece of lowering, run in two scopes of two trees. If names mean the same in both scopes, the
resources are the same, and the registries answer alike, then both runs fail with the same error or both
succeed with the same result, the same code and scopes that are alike again. When code counts as the
same, and how the registries are related, is left open: all that is asked is that the sameness of
code passes to larger pieces, and that requests to related registries are answered alike. The numbers
of the scopes and the scopes beside them have no part in it.
-/

namespace Goward

open Goward.Build Goward.Code

/-- Sameness of the other sides of two branches or loops. -/
def SameElse (Same : List Step → List Step → Prop) :
    Option (List Step) → Option (List Step) → Prop
  | none, none => True
  | some a, some b => Same a b
  | none, some _ | some _, none => False

/-- When code counts as the same, and how the registries of two runs are related. -/
structure Comparison where
  Same : List Step → List Step → Prop
  Related : Registry → Registry → Prop
  refl : ∀ code, Same code code
  append : ∀ {a a' b b'}, Same a a' → Same b b' → Same (a ++ b) (a' ++ b')
  branch : ∀ {test test' body body' orelse orelse'} cond, Same test test' → Same body body' →
    SameElse Same orelse orelse' →
    Same [.branch test cond body orelse] [.branch test' cond body' orelse']
  whileLoop : ∀ {test test' body body' orelse orelse'} cond, Same test test' → Same body body' →
    SameElse Same orelse orelse' →
    Same [.whileLoop test cond body orelse] [.whileLoop test' cond body' orelse']
  forLoop : ∀ {bind bind' body body' orelse orelse'} iterator item, Same bind bind' →
    Same body body' → SameElse Same orelse orelse' →
    Same [.forLoop iterator item bind body orelse] [.forLoop iterator item bind' body' orelse']
  function : ∀ {body body'} dst header temps, Same body body' →
    Same [.function dst header temps body] [.function dst header temps body']
  classBody : ∀ {body body'} dst name names temps, Same body body' →
    Same [.classBody dst name names temps body] [.classBody dst name names temps body']
  intern : ∀ {r r'} s, Related r r' → Related (r.intern s).2 (r'.intern s).2
  libroot : ∀ {r r'}, Related r r' → r.libroot = r'.libroot
  addNative : ∀ {r r'} path, Related r r' →
    (r.addNative path).1 = (r'.addNative path).1 ∧
      Related (r.addNative path).2 (r'.addNative path).2

/-- Two scopes of two trees that look the same from the inside. -/
structure Alike (K : Comparison) (o : Options) (i j : Nat) (t u : ScopeTree) : Prop where
  left : t.Arises o
  right : u.Arises o
  inLeft : (t.scope? i).isSome
  inRight : (u.scope? j).isSome
  names : (t.chain i).SameNames (u.chain j)
  generator : (t.chain i).function?.map (·.isGenerator) =
    (u.chain j).function?.map (·.isGenerator)
  resources : t.resources i = u.resources j
  registry : K.Related t.registry u.registry

namespace Alike

variable {K : Comparison} {o : Options} {i j : Nat} {t u : ScopeTree}

theorem access (h : Alike K o i j t u) (x : String) : t.access i x = u.access j x := by
  rw [ScopeTree.access_eq_chain h.left.rooted, ScopeTree.access_eq_chain h.right.rooted,
    h.names.access_eq]

theorem home? (h : Alike K o i j t u) (x : String) : t.home? i x = u.home? j x := by
  rw [ScopeTree.home?_eq_chain h.left.rooted, ScopeTree.home?_eq_chain h.right.rooted,
    h.names.home?_eq]

/-- Whether the body is that of a function, and which kind of one. -/
theorem isGenerator (h : Alike K o i j t u) :
    ((t.scope? i).bind (·.function?)).map (·.isGenerator) =
      ((u.scope? j).bind (·.function?)).map (·.isGenerator) := by
  rw [ScopeTree.function?_eq_chain h.left.rooted, ScopeTree.function?_eq_chain h.right.rooted,
    h.generator]

/-- Both scopes look the same from the inside after changes elsewhere. -/
theorem grow {t' u' : ScopeTree} (h : Alike K o i j t u) (hleft : t.GrowsTo t')
    (hright : u.GrowsTo u') (hleft' : t'.Arises o) (hright' : u'.Arises o)
    (hresources : t'.resources i = u'.resources j) (hregistry : K.Related t'.registry u'.registry) :
    Alike K o i j t' u' where
  left := hleft'
  right := hright'
  inLeft := hleft.isSome h.inLeft
  inRight := hright.isSome h.inRight
  names := by
    rw [hleft.chain_eq h.left.rooted hleft'.rooted i h.inLeft,
      hright.chain_eq h.right.rooted hright'.rooted j h.inRight]
    exact h.names
  generator := by
    rw [hleft.chain_eq h.left.rooted hleft'.rooted i h.inLeft,
      hright.chain_eq h.right.rooted hright'.rooted j h.inRight]
    exact h.generator
  resources := hresources
  registry := hregistry

/-- Both scopes have new resources, and stay alike. -/
theorem setResources (h : Alike K o i j t u) (r : Resources)
    (hleft : (t.setResources i r).Arises o) (hright : (u.setResources j r).Arises o) :
    Alike K o i j (t.setResources i r) (u.setResources j r) := by
  refine h.grow (.setResources t i r) (.setResources u j r) hleft hright ?_ h.registry
  rw [ScopeTree.resources_setResources, ScopeTree.resources_setResources, if_pos ⟨rfl, h.inLeft⟩,
    if_pos ⟨rfl, h.inRight⟩]

/-- Two scopes of one kind that are entered where names mean the same. The resources of the scopes
around them have no part in it. -/
theorem entered (hleft : t.Arises o) (hright : u.Arises o) (hi : (t.scope? i).isSome)
    (hj : (u.scope? j).isSome) (hnames : (t.chain i).SameNames (u.chain j))
    (hregistry : K.Related t.registry u.registry) (name name' : String) {kind : ScopeKind}
    (hkind : kind ≠ .module) :
    Alike K o (t.push i name kind).1 (u.push j name' kind).1 (t.push i name kind).2
      (u.push j name' kind).2 where
  left := .push name hleft hi hkind
  right := .push name' hright hj hkind
  inLeft := ScopeTree.scope?_push_isSome.mpr (.inr rfl)
  inRight := ScopeTree.scope?_push_isSome.mpr (.inr rfl)
  names := by
    rw [ScopeTree.chain_push hleft.rooted hi name hkind,
      ScopeTree.chain_push hright.rooted hj name' hkind]
    exact hnames.cons kind
  generator := by
    rw [ScopeTree.chain_push hleft.rooted hi name hkind,
      ScopeTree.chain_push hright.rooted hj name' hkind]
    cases kind <;> rfl
  resources := by rw [ScopeTree.resources_entered, ScopeTree.resources_entered]
  registry := hregistry

end Alike

/-- Two runs fail with the same error, or succeed with results, code and trees that agree. -/
inductive SameOutcome {α : Type} (Same : List Step → List Step → Prop) (V : α → α → Prop)
    (P : ScopeTree → ScopeTree → Prop) : Except Error (Built α) → Except Error (Built α) → Prop
  | ok {r r' : Built α} : V r.value r'.value → Same r.code r'.code → P r.tree r'.tree →
    SameOutcome Same V P (.ok r) (.ok r')
  | error (e : Error) : SameOutcome Same V P (.error e) (.error e)

/-- Two builds in a row, where the outcomes of the first ones agree. -/
theorem SameOutcome.bind {α β : Type} {K : Comparison} {V : α → α → Prop} {W : β → β → Prop}
    {P Q : ScopeTree → ScopeTree → Prop} {b b' : Build α} {f f' : α → Build β} {t u : ScopeTree}
    (hb : SameOutcome K.Same V P (b.run t) (b'.run u))
    (hf : ∀ a a' t' u', V a a' → P t' u' →
      SameOutcome K.Same W Q ((f a).run t') ((f' a').run u')) :
    SameOutcome K.Same W Q ((b >>= f).run t) ((b' >>= f').run u) := by
  generalize hr : b.run t = x at hb
  generalize hr' : b'.run u = y at hb
  cases hb with
  | error e =>
    rw [run_bind_error.mpr (.inl hr), run_bind_error.mpr (.inl hr')]
    exact .error e
  | @ok r r' hv hc hp =>
    have hrest := hf _ _ _ _ hv hp
    generalize hs : (f r.value).run r.tree = x at hrest
    generalize hs' : (f' r'.value).run r'.tree = y at hrest
    cases hrest with
    | error e =>
      rw [run_bind_error.mpr (.inr ⟨r, hr, hs⟩), run_bind_error.mpr (.inr ⟨r', hr', hs'⟩)]
      exact .error e
    | @ok q q' hw hd hq =>
      rw [run_bind_ok.mpr ⟨r, hr, q, hs, rfl⟩, run_bind_ok.mpr ⟨r', hr', q', hs', rfl⟩]
      exact .ok hw (K.append hc hd) hq

/-- What is known of the trees after the single runs. -/
theorem SameOutcome.after {α : Type} {Same : List Step → List Step → Prop} {V : α → α → Prop}
    {P Q : ScopeTree → ScopeTree → Prop} {x y : Except Error (Built α)}
    (h : SameOutcome Same V P x y)
    (hQ : ∀ r r', x = .ok r → y = .ok r' → P r.tree r'.tree → Q r.tree r'.tree) :
    SameOutcome Same V Q x y := by
  cases h with
  | ok hv hc hp => exact .ok hv hc (hQ _ _ rfl rfl hp)
  | error e => exact .error e

/-- Runs whose outcomes agree in all have the same result, or fail with the same error. -/
theorem SameOutcome.map_value {α : Type} {Same : List Step → List Step → Prop}
    {P : ScopeTree → ScopeTree → Prop} {x y : Except Error (Built α)}
    (h : SameOutcome Same Eq P x y) : x.map (·.value) = y.map (·.value) := by
  cases h with
  | ok hv _ _ => exact congrArg Except.ok hv
  | error e => rfl

namespace Build

/-- A build in one scope and a build in another one agree wherever the scopes are alike. -/
def Agree {α : Type} (K : Comparison) (o : Options) (i j : Nat) (b b' : Build α)
    (V : α → α → Prop) : Prop :=
  ∀ t u, Alike K o i j t u → SameOutcome K.Same V (Alike K o i j) (b.run t) (b'.run u)

namespace Agree

variable {α β : Type} {K : Comparison} {o : Options} {i j : Nat}
  {V : α → α → Prop} {W : β → β → Prop}

theorem pure {a a' : α} (h : V a a') : Agree K o i j (pure a) (pure a') V :=
  fun _ _ htu => .ok h (K.refl []) htu

theorem fail (c : Cause) : Agree K o i j (Build.fail c) (Build.fail c) V :=
  fun _ _ _ => .error _

theorem bind {b b' : Build α} {f f' : α → Build β} (hb : Agree K o i j b b' V)
    (hf : ∀ a a', V a a' → Agree K o i j (f a) (f' a') W) :
    Agree K o i j (b >>= f) (b' >>= f') W :=
  fun t u htu => (hb t u htu).bind fun _ _ _ _ hv hp => hf _ _ hv _ _ hp

/-- One build after another, with the same result of the first one. -/
theorem andThen {b b' : Build α} {f f' : α → Build β} (hb : Agree K o i j b b' Eq)
    (hf : ∀ a, Agree K o i j (f a) (f' a) W) : Agree K o i j (b >>= f) (b' >>= f') W := by
  refine hb.bind fun a a' ha => ?_
  subst ha
  exact hf a

/-- What looks at the tree looks at trees that are alike. -/
theorem ofTree {f f' : ScopeTree → Build β}
    (hf : ∀ t u, Alike K o i j t u → Agree K o i j (f t) (f' u) W) :
    Agree K o i j (tree >>= f) (tree >>= f') W :=
  bind (V := Alike K o i j) (fun _ _ htu => .ok htu (K.refl []) htu) hf

theorem lift (x : Except Error α) : Agree K o i j (Build.lift x) (Build.lift x) Eq := by
  intro t u htu
  cases x with
  | error e => exact .error e
  | ok a => exact .ok rfl (K.refl []) htu

theorem require (b : Bool) (c : Cause) :
    Agree K o i j (Build.require b c) (Build.require b c) Eq := by
  cases b with
  | false => exact fail c
  | true => exact pure rfl

theorem emit {s s' : Step} (h : K.Same [s] [s']) :
    Agree K o i j (Build.emit s) (Build.emit s') Eq :=
  fun _ _ htu => .ok rfl h htu

theorem act (a : Action) : Agree K o i j (Build.act a) (Build.act a) Eq := emit (K.refl _)

theorem collect {b b' : Build α} (h : Agree K o i j b b' V) :
    Agree K o i j (Build.collect b) (Build.collect b')
      fun a a' => V a.1 a'.1 ∧ K.Same a.2 a'.2 := by
  intro t u htu
  have hrun := h t u htu
  generalize hr : b.run t = x at hrun
  generalize hr' : b'.run u = y at hrun
  cases hrun with
  | error e =>
    rw [run_collect_error.mpr hr, run_collect_error.mpr hr']
    exact .error e
  | @ok r r' hv hc hp =>
    rw [run_collect_ok.mpr ⟨r, hr, rfl⟩, run_collect_ok.mpr ⟨r', hr', rfl⟩]
    exact .ok ⟨hv, hc⟩ (K.refl []) hp

theorem codeOf {b b' : Build Unit} (h : Agree K o i j b b' Eq) :
    Agree K o i j (Build.codeOf b) (Build.codeOf b') K.Same :=
  h.collect.bind fun _ _ ha => .pure ha.2

theorem locate {b b' : Build α} (span : Span) (h : Agree K o i j b b' V) :
    Agree K o i j (Build.locate span b) (Build.locate span b') V := by
  intro t u htu
  have hrun := h t u htu
  simp only [Build.run, Build.locate] at hrun ⊢
  split
  · exact hrun
  · generalize b t = x at hrun
    generalize b' u = y at hrun
    cases hrun with
    | error e => exact .error _
    | ok hv hc hp => exact .ok hv hc hp

/-! ### Changes of the tree -/

theorem onRegistry {f : Registry → α × Registry}
    (hleft : ∀ t : ScopeTree, t.Arises o → (t.onRegistry f).2.Arises o)
    (hf : ∀ r r', K.Related r r' → (f r).1 = (f r').1 ∧ K.Related (f r).2 (f r').2) :
    Agree K o i j (onTree (·.onRegistry f)) (onTree (·.onRegistry f)) Eq := by
  intro t u htu
  obtain ⟨hanswer, hrelated⟩ := hf _ _ htu.registry
  have hgrows (v : ScopeTree) : v.GrowsTo (v.onRegistry f).2 := fun _ s hs => ⟨s, hs, rfl, rfl⟩
  exact .ok hanswer (K.refl []) (htu.grow (hgrows t) (hgrows u) (hleft t htu.left)
    (hleft u htu.right) htu.resources hrelated)

theorem intern (s : String) : Agree K o i j (Build.intern s) (Build.intern s) Eq := by
  refine onRegistry (fun t ht => .intern s ht) fun r r' h => ⟨?_, K.intern s h⟩
  unfold Registry.intern
  split <;> rfl

theorem addNative (path : String) :
    Agree K o i j (onTree (·.addNative path)) (onTree (·.addNative path)) Eq :=
  onRegistry (fun _ ht => .addNative path ht) fun _ _ h => K.addNative path h

theorem addImport (path : String) :
    Agree K o i j (onTree (·.addImport path)) (onTree (·.addImport path)) Eq := by
  refine onRegistry (fun _ ht => .addImport path ht) fun r r' h => ?_
  rw [Registry.addImport, Registry.addImport, K.libroot h]
  exact K.addNative _ h

theorem alloc (type : String) :
    Agree K o i j (onTree (·.alloc i type)) (onTree (·.alloc j type)) Eq := by
  intro t u htu
  have hleft : (t.alloc i type).2 = t.setResources i ((t.resources i).alloc type).2 := rfl
  have hright : (u.alloc j type).2 = u.setResources j ((t.resources i).alloc type).2 := by
    rw [htu.resources]
    rfl
  refine .ok ?_ (K.refl []) ?_
  · show ((t.resources i).alloc type).1 = ((u.resources j).alloc type).1
    rw [htu.resources]
  · have h := htu.setResources ((t.resources i).alloc type).2 (hleft ▸ htu.left.alloc i type)
      (hright ▸ htu.right.alloc j type)
    rw [← hleft, ← hright] at h
    exact h

theorem acquire (type : String) : Agree K o i j (Build.acquire i type) (Build.acquire j type) Eq :=
  (alloc type).andThen fun _ => (act _).andThen fun _ => .pure rfl

theorem release (v : Temp) : Agree K o i j (Build.release i v) (Build.release j v) Eq := by
  refine andThen ?_ fun _ => act _
  intro t u htu
  have hfree : t.free i v = ((t.resources i).free v).map (t.setResources i) := rfl
  have hfree' : u.free j v = ((t.resources i).free v).map (u.setResources j) := by
    rw [htu.resources]
    rfl
  simp only [Build.run, updateTree]
  cases hr : (t.resources i).free v with
  | error e =>
    rw [hfree, hfree', hr]
    exact .error e
  | ok r =>
    rw [hr] at hfree hfree'
    rw [hfree, hfree']
    exact .ok rfl (K.refl []) (htu.setResources r (htu.left.free hfree) (htu.right.free hfree'))

theorem releaseValue (v : Value) :
    Agree K o i j (Build.releaseValue i v) (Build.releaseValue j v) Eq := by
  unfold Build.releaseValue
  split
  · exact release _
  · exact pure rfl

theorem releaseAll (vs : List Value) :
    Agree K o i j (Build.releaseAll i vs) (Build.releaseAll j vs) Eq := by
  induction vs with
  | nil => exact pure rfl
  | cons v rest ih => exact (releaseValue v).andThen fun _ => ih

theorem callInto (type : String) (c : Call) :
    Agree K o i j (Build.callInto i type c) (Build.callInto j type c) Eq :=
  (acquire type).andThen fun _ => (act _).andThen fun _ => .pure rfl

end Agree

variable {K : Comparison} {o : Options} {i j : Nat}

theorem readName_agree (x : String) : Agree K o i j (readName i x) (readName j x) Eq := by
  refine .ofTree fun t u htu => ?_
  rw [htu.access x]
  split
  · exact (Agree.intern x).andThen fun _ => (Agree.callInto _ _).andThen fun _ => .pure rfl
  · exact (Agree.intern x).andThen fun _ => (Agree.callInto _ _).andThen fun _ => .pure rfl
  · exact (Agree.act _).andThen fun _ => .pure rfl

theorem storeName_agree (x : String) (v : Value) :
    Agree K o i j (storeName i x v) (storeName j x v) Eq := by
  refine .ofTree fun t u htu => ?_
  rw [htu.home? x]
  split
  · exact .fail _
  · exact (Agree.intern x).andThen fun _ => .act _
  · exact (Agree.intern x).andThen fun _ => .act _
  · exact .act _

theorem deleteName_agree (x : String) : Agree K o i j (deleteName i x) (deleteName j x) Eq := by
  refine .ofTree fun t u htu => ?_
  rw [htu.home? x]
  split
  · exact .fail _
  · exact (Agree.intern x).andThen fun _ => .act _
  · exact (Agree.intern x).andThen fun _ => .act _
  · exact (Agree.act _).andThen fun _ => .act _

theorem constructFrom_agree (k : Construction) (vs : List Value) :
    Agree K o i j (constructFrom i k vs) (constructFrom j k vs) Eq :=
  (Agree.acquire _).andThen fun _ => (Agree.act _).andThen fun _ =>
    (Agree.releaseAll vs).andThen fun _ => .pure rfl

theorem callWith_agree (c : Call) (vs : List Value) :
    Agree K o i j (callWith i c vs) (callWith j c vs) Eq :=
  (Agree.callInto _ c).andThen fun _ => (Agree.releaseAll vs).andThen fun _ => .pure rfl

theorem suspend_agree (v : Value) : Agree K o i j (suspend i v) (suspend j v) Eq :=
  (Agree.emit (K.refl _)).andThen fun _ => (Agree.releaseValue v).andThen fun _ =>
    constructFrom_agree _ _

theorem requireGenerator_agree :
    Agree K o i j (requireGenerator i) (requireGenerator j) Eq := by
  refine .ofTree fun t u htu => ?_
  have hbind (x : Option Scope) : x.any (·.isGenerator) =
      ((x.bind (·.function?)).map (·.isGenerator)).any id := by
    rcases x with _ | s
    · rfl
    · rw [Option.any_some, Scope.isGenerator, Option.bind_some, Option.any_map]
      rfl
  rw [hbind, hbind, htu.isGenerator]
  exact .require _ _

mutual

theorem lowerExpr_agree : (e : Expr) → Agree K o i j (lowerExpr i e) (lowerExpr j e) Eq
  | .name x => readName_agree x
  | .str s => (Agree.intern s).andThen fun _ => .pure rfl
  | .int _ => .pure rfl
  | .tuple elts => (lowerExprs_agree elts).andThen fun _ => constructFrom_agree _ _
  | .list elts => (lowerExprs_agree elts).andThen fun _ => constructFrom_agree _ _
  | .attr obj name =>
    (lowerExpr_agree obj).andThen fun _ => (Agree.intern name).andThen fun _ => callWith_agree _ _
  | .call fn args =>
    (lowerExpr_agree fn).andThen fun _ => (lowerExprs_agree args).andThen fun _ =>
      callWith_agree _ _
  | .binop left _ right =>
    (lowerExpr_agree left).andThen fun _ => (lowerExpr_agree right).andThen fun _ =>
      callWith_agree _ _
  | .yield none => requireGenerator_agree.andThen fun _ => suspend_agree _
  | .yield (some value) =>
    requireGenerator_agree.andThen fun _ => (lowerExpr_agree value).andThen fun _ =>
      suspend_agree _

theorem lowerExprs_agree :
    (es : List Expr) → Agree K o i j (lowerExprs i es) (lowerExprs j es) Eq
  | [] => .pure rfl
  | e :: rest =>
    (lowerExpr_agree e).andThen fun _ => (lowerExprs_agree rest).andThen fun _ => .pure rfl

end

theorem unpack_agree (v : Value) (n : Nat) {store store' : Temp → Build Unit}
    (hs : ∀ items, Agree K o i j (store items) (store' items) Eq) :
    Agree K o i j (unpack i v n store) (unpack j v n store') Eq :=
  (Agree.acquire _).andThen fun items => (Agree.act _).andThen fun _ => (Agree.act _).andThen
    fun _ => (hs items).andThen fun _ => .release items

mutual

theorem storeInto_agree (v : Value) :
    (e : Expr) → Agree K o i j (storeInto i v e) (storeInto j v e) Eq
  | .name x => storeName_agree x v
  | .attr obj name =>
    (lowerExpr_agree obj).andThen fun _ => (Agree.intern name).andThen fun _ =>
      (Agree.act _).andThen fun _ => .releaseValue _
  | .tuple elts => unpack_agree v _ fun items => storeItems_agree items 0 elts
  | .list elts => unpack_agree v _ fun items => storeItems_agree items 0 elts
  | .str _ | .int _ | .call _ _ | .binop _ _ _ | .yield _ => .fail _

theorem storeItems_agree (items : Temp) : (index : Nat) → (es : List Expr) →
    Agree K o i j (storeItems i items index es) (storeItems j items index es) Eq
  | _, [] => .pure rfl
  | index, e :: rest =>
    (storeInto_agree _ e).andThen fun _ => storeItems_agree items (index + 1) rest

end

theorem storeIntoAll_agree (v : Value) (es : List Expr) :
    Agree K o i j (storeIntoAll i v es) (storeIntoAll j v es) Eq := by
  induction es with
  | nil => exact .pure rfl
  | cons e rest ih => exact (storeInto_agree v e).andThen fun _ => ih

theorem deleteAll_agree :
    (es : List Expr) → Agree K o i j (deleteAll i es) (deleteAll j es) Eq
  | [] => .pure rfl
  | .name x :: rest => (deleteName_agree x).andThen fun _ => deleteAll_agree rest
  | .str _ :: _ | .int _ :: _ | .tuple _ :: _ | .list _ :: _ | .attr _ _ :: _ | .call _ _ :: _
  | .binop _ _ _ :: _ | .yield _ :: _ => .fail _

theorem addPackages_agree (parts : List String) :
    ∀ before, Agree K o i j (addPackages before parts) (addPackages before parts) Eq := by
  induction parts with
  | nil => exact fun _ => .pure rfl
  | cons part rest ih =>
    exact fun before => (Agree.addImport _).andThen fun _ => (ih _).andThen fun _ => .pure rfl

theorem loadModule_agree (path : ModulePath) :
    Agree K o i j (loadModule i path) (loadModule j path) Eq :=
  (Agree.require _ _).andThen fun _ => (addPackages_agree _ _).andThen fun _ => .callInto _ _

theorem importModule_agree (a : Alias) :
    Agree K o i j (importModule i a) (importModule j a) Eq := by
  refine (loadModule_agree a.path).andThen fun modules => ?_
  split
  · exact (storeName_agree _ _).andThen fun _ => .release modules
  · exact (storeName_agree _ _).andThen fun _ => .release modules
  · exact (Agree.fail (V := Eq) _).andThen fun _ => .release modules

theorem importMember_agree (x : String) (c : Call) :
    Agree K o i j (importMember i x c) (importMember j x c) Eq :=
  (Agree.callInto _ c).andThen fun _ => (storeName_agree x _).andThen fun _ => .release _

theorem importMembers_agree (module : Value) (names : List Alias) :
    Agree K o i j (importMembers i module names) (importMembers j module names) Eq := by
  induction names with
  | nil => exact .pure rfl
  | cons a rest ih =>
    unfold importMembers
    split
    · exact ih
    · exact (Agree.intern _).andThen fun _ => (importMember_agree _ _).andThen fun _ => ih

theorem importNativeMembers_agree (reflect package : Package) (names : List Alias) :
    Agree K o i j (importNativeMembers i reflect package names)
      (importNativeMembers j reflect package names) Eq := by
  induction names with
  | nil => exact .pure rfl
  | cons a rest ih =>
    unfold importNativeMembers
    split
    · exact ih
    · exact (importMember_agree _ _).andThen fun _ => ih

theorem importFrom_agree (path : ModulePath) (names : List Alias) (level : Nat) :
    Agree K o i j (importFrom i path names level) (importFrom j path names level) Eq := by
  refine (Agree.require _ _).andThen fun _ => ?_
  split
  · exact (Agree.require _ _).andThen fun _ => (Agree.addNative _).andThen fun _ =>
      (Agree.addNative _).andThen fun _ => importNativeMembers_agree _ _ names
  · exact (loadModule_agree path).andThen fun _ => (importMembers_agree _ names).andThen fun _ =>
      .release _

theorem importModules_agree (names : List Alias) :
    Agree K o i j (importModules i names) (importModules j names) Eq := by
  induction names with
  | nil => exact .pure rfl
  | cons a rest ih => exact (importModule_agree a).andThen fun _ => ih

/-! ### Statements -/

theorem lowerTest_agree (test : Expr) :
    Agree K o i j (lowerTest i test) (lowerTest j test) Eq :=
  (lowerExpr_agree test).andThen fun _ => (Agree.callInto _ _).andThen fun _ => .pure rfl

theorem releaseTest_agree (tested : Value × Temp) :
    Agree K o i j (releaseTest i tested) (releaseTest j tested) Eq :=
  (Agree.releaseValue _).andThen fun _ => .release _

theorem updateName_agree (x : String) (op : BinOp) (value : Expr) :
    Agree K o i j (updateName i x op value) (updateName j x op value) Eq :=
  (readName_agree x).andThen fun _ => (lowerExpr_agree value).andThen fun _ =>
    (Agree.callInto _ _).andThen fun _ => (Agree.releaseAll _).andThen fun _ =>
      (storeName_agree x _).andThen fun _ => .release _

theorem lowerReturn_agree (value : Option Expr) :
    Agree K o i j (lowerReturn i value) (lowerReturn j value) Eq := by
  refine .ofTree fun t u htu => ?_
  have hgenerator := htu.isGenerator
  cases hf : (t.scope? i).bind (·.function?) with
  | none =>
    rw [hf] at hgenerator
    rw [Option.map_eq_none_iff.mp hgenerator.symm]
    exact .fail _
  | some f =>
    rw [hf] at hgenerator
    obtain ⟨f', hf', hsame⟩ := Option.map_eq_some_iff.mp hgenerator.symm
    simp only [hf', hsame]
    split
    · exact .emit (K.refl _)
    · exact .fail _
    · exact .emit (K.refl _)
    · exact (lowerExpr_agree _).andThen fun _ => (Agree.emit (K.refl _)).andThen fun _ =>
        .releaseValue _

theorem bodyWithEnd_agree (returnsNone : Bool) {body body' : Build Unit}
    (h : Agree K o i j body body' Eq) :
    Agree K o i j (bodyWithEnd returnsNone body) (bodyWithEnd returnsNone body') K.Same :=
  (h.andThen fun _ => .emit (K.refl _)).codeOf

/-- A branch or a `while` loop. -/
theorem tested_agree {step : List Step → Temp → List Step → Option (List Step) → Step}
    (hstep : ∀ {test test' body body' orelse orelse'} cond, K.Same test test' →
      K.Same body body' → SameElse K.Same orelse orelse' →
      K.Same [step test cond body orelse] [step test' cond body' orelse'])
    (test : Expr) {body body' : Value × Temp → Build Unit}
    {orelse orelse' : Build (Option (List Step))}
    (hbody : ∀ tested, Agree K o i j (body tested) (body' tested) Eq)
    (helse : Agree K o i j orelse orelse' (SameElse K.Same)) :
    Agree K o i j
      (do
        let (tested, check) ← collect (lowerTest i test)
        let steps ← codeOf (body tested)
        let other ← orelse
        emit (step check tested.2 steps other))
      (do
        let (tested, check) ← collect (lowerTest j test)
        let steps ← codeOf (body' tested)
        let other ← orelse'
        emit (step check tested.2 steps other)) Eq := by
  refine (lowerTest_agree test).collect.bind ?_
  rintro ⟨tested, check⟩ ⟨tested', check'⟩ ⟨htested, hcheck⟩
  obtain rfl : tested = tested' := htested
  exact (hbody tested).codeOf.bind fun _ _ hsteps => helse.bind fun _ _ hother =>
    .emit (hstep _ hcheck hsteps hother)

/-- After the body of a definition the scope around it is as it was. -/
theorem definition_kept {cx : Context} {t : ScopeTree} (ht : t.Arises o)
    (hid : (t.scope? i).isSome) {name : String} {kind : ScopeKind} {returnsNone : Bool}
    {body : List Stmt} {r : Built (List Step)}
    (hr : (bodyWithEnd returnsNone (lowerBody cx (t.push i name kind).1 false body)).run
      (t.push i name kind).2 = .ok r) :
    t.GrowsTo r.tree ∧ r.tree.resources i = t.resources i := by
  obtain ⟨-, haside, hresources, -⟩ := Leases.entered
    (fun inner => (lowerBody_leases cx inner false body).toBalances) (ht.reached.sound i hid) hr
  exact ⟨haside.grows, hresources⟩

/-- A definition, whose body is entered by a push of a scope. -/
theorem definition_agree {α : Type} {V : α → α → Prop} {cx cx' : Context} (name : String)
    (kind : ScopeKind) (hkind : kind ≠ .module) {returnsNone : Bool} {body : List Stmt}
    (hbody : ∀ i' j', Agree K o i' j' (lowerBody cx i' false body) (lowerBody cx' j' false body) Eq)
    {rest rest' : List Step → List Temp → Build α}
    (hrest : ∀ steps steps' temps, K.Same steps steps' →
      Agree K o i j (rest steps temps) (rest' steps' temps) V) :
    Agree K o i j
      (do
        let inner ← onTree (·.push i name kind)
        let steps ← bodyWithEnd returnsNone (lowerBody cx inner false body)
        let temps ← declaredTemps inner
        rest steps temps)
      (do
        let inner ← onTree (·.push j name kind)
        let steps ← bodyWithEnd returnsNone (lowerBody cx' inner false body)
        let temps ← declaredTemps inner
        rest' steps temps) V := by
  intro t u htu
  have hentered := Alike.entered htu.left htu.right htu.inLeft htu.inRight htu.names htu.registry
    name name hkind
  have hbodies : SameOutcome K.Same K.Same (fun t' u' => Alike K o i j t' u' ∧
      (t'.resources (t.push i name kind).1).pool.temps =
        (u'.resources (u.push j name kind).1).pool.temps)
      ((bodyWithEnd returnsNone (lowerBody cx (t.push i name kind).1 false body)).run
        (t.push i name kind).2)
      ((bodyWithEnd returnsNone (lowerBody cx' (u.push j name kind).1 false body)).run
        (u.push j name kind).2) := by
    refine (bodyWithEnd_agree returnsNone (hbody _ _) _ _ hentered).after ?_
    intro r r' hr hr' hp
    obtain ⟨hgrows, hkept⟩ := definition_kept htu.left htu.inLeft hr
    obtain ⟨hgrows', hkept'⟩ := definition_kept htu.right htu.inRight hr'
    refine ⟨htu.grow hgrows hgrows' hp.left hp.right ?_ hp.registry,
      congrArg (·.pool.temps) hp.resources⟩
    rw [hkept, hkept', htu.resources]
  refine SameOutcome.bind (V := fun a a' => a = (t.push i name kind).1 ∧
    a' = (u.push j name kind).1) (P := fun t' u' => t' = (t.push i name kind).2 ∧
    u' = (u.push j name kind).2) (.ok ⟨rfl, rfl⟩ (K.refl []) ⟨rfl, rfl⟩) ?_
  rintro _ _ _ _ ⟨rfl, rfl⟩ ⟨rfl, rfl⟩
  refine hbodies.bind fun steps steps' t' u' hsteps htu' => ?_
  refine SameOutcome.bind (V := Eq) (P := Alike K o i j) (.ok htu'.2 (K.refl []) htu'.1) ?_
  rintro temps _ t'' u'' rfl h
  exact hrest steps steps' temps hsteps t'' u'' h

theorem defineFunction_agree {cx cx' : Context} {body : List Stmt} (name : String)
    (params : Parameters) (f : FunctionVars)
    (hbody : ∀ i' j', Agree K o i' j' (lowerBody cx i' false body) (lowerBody cx' j' false body) Eq) :
    Agree K o i j (defineFunction i name params f fun inner => lowerBody cx inner false body)
      (defineFunction j name params f fun inner => lowerBody cx' inner false body) Eq :=
  definition_agree name (.function f) nofun hbody
    fun _ _ _ hsteps => (Agree.acquire _).andThen fun _ =>
      (Agree.emit (K.function _ _ _ hsteps)).andThen fun _ =>
        (storeName_agree _ _).andThen fun _ => .release _

theorem defineClass_agree {cx cx' : Context} (hcx : cx.options = cx'.options) {body : List Stmt}
    (name : String) (bases : List Expr) (vars : VarMap)
    (hbody : ∀ i' j', Agree K o i' j' (lowerBody cx i' false body) (lowerBody cx' j' false body) Eq) :
    Agree K o i j (defineClass cx i name bases vars fun inner => lowerBody cx inner false body)
      (defineClass cx' j name bases vars fun inner => lowerBody cx' inner false body) Eq := by
  unfold defineClass
  rw [hcx]
  exact (lowerExprs_agree bases).andThen fun _ => (Agree.acquire _).andThen fun _ =>
    (Agree.act _).andThen fun _ => (Agree.releaseAll _).andThen fun _ =>
    (Agree.acquire _).andThen fun _ => (Agree.act _).andThen fun _ =>
    (Agree.intern _).andThen fun _ => (Agree.act _).andThen fun _ =>
    definition_agree name (.classBody vars.globals) nofun hbody
      fun _ _ _ hsteps => (Agree.acquire _).andThen fun _ =>
        (Agree.emit (K.classBody _ _ _ _ hsteps)).andThen fun _ => (Agree.act _).andThen fun _ =>
        (Agree.intern _).andThen fun _ => (Agree.callInto _ _).andThen fun _ =>
        (storeName_agree _ _).andThen fun _ => .releaseAll _

end Build

open Build

/-- Two contexts with the same options whose notes of the source count as the same. -/
structure SameContext (K : Comparison) (o : Options) (cx cx' : Context) : Prop where
  options : cx.options = cx'.options
  annotate : ∀ i j span, Agree K o i j (annotate cx span) (annotate cx' span) Eq

variable {K : Comparison} {o : Options} {cx cx' : Context}

mutual

theorem lowerStmt_agree (h : SameContext K o cx cx') (i j : Nat) (inLoop : Bool) : (s : Stmt) →
    Agree K o i j (lowerStmt cx i inLoop s) (lowerStmt cx' j inLoop s) Eq
  | .mk span kind =>
    (h.annotate i j span).andThen fun _ => (lowerKind_agree h i j inLoop kind).locate span

theorem lowerKind_agree (h : SameContext K o cx cx') (i j : Nat) (inLoop : Bool) :
    (k : StmtKind) → Agree K o i j (lowerKind cx i inLoop k) (lowerKind cx' j inLoop k) Eq
  | .assign targets value =>
    (lowerExpr_agree value).andThen fun v => (storeIntoAll_agree v targets).andThen fun _ =>
      .releaseValue v
  | .augAssign (.name x) op value => updateName_agree x op value
  | .augAssign (.str _) _ _ | .augAssign (.int _) _ _ | .augAssign (.tuple _) _ _
  | .augAssign (.list _) _ _ | .augAssign (.attr _ _) _ _ | .augAssign (.call _ _) _ _
  | .augAssign (.binop _ _ _) _ _ | .augAssign (.yield _) _ _ => .fail _
  | .delete targets => deleteAll_agree targets
  | .global _ => .pure rfl
  | .imports names => importModules_agree names
  | .importsFrom path names level => importFrom_agree path names level
  | .functionDef name params body =>
    (Agree.lift _).andThen fun f => defineFunction_agree name params f fun i' j' =>
      lowerBody_agree h i' j' false body
  | .classDef name bases body =>
    (Agree.lift _).andThen fun vars => defineClass_agree h.options name bases vars fun i' j' =>
      lowerBody_agree h i' j' false body
  | .forEach target iter body orelse =>
    (lowerExpr_agree iter).andThen fun v => (Agree.callInto _ _).andThen fun _ =>
      (Agree.releaseValue v).andThen fun _ => (Agree.acquire _).andThen fun item =>
      ((storeInto_agree _ target).andThen fun _ => Agree.release item).codeOf.bind
      fun _ _ hbind => (lowerBody_agree h i j true body).codeOf.bind
      fun _ _ hsteps => (lowerElse_agree h i j inLoop orelse).bind
      fun _ _ hother => (Agree.emit (K.forLoop _ _ hbind hsteps hother)).andThen fun _ => .release _
  | .whileLoop test body orelse =>
    tested_agree K.whileLoop test (fun tested => (releaseTest_agree tested).andThen fun _ =>
      lowerBody_agree h i j true body) (lowerElse_agree h i j inLoop orelse)
  | .branch test body orelse =>
    tested_agree K.branch test (fun tested => (releaseTest_agree tested).andThen fun _ =>
      lowerBody_agree h i j inLoop body) (lowerElse_agree h i j inLoop orelse)
  | .withItems _ _ | .tryExcept _ _ _ _ => .fail _
  | .ret value => lowerReturn_agree value
  | .expr value => (lowerExpr_agree value).andThen fun v => .releaseValue v
  | .breakLoop | .continueLoop => by
    unfold lowerKind
    cases inLoop with
    | true => exact .emit (K.refl _)
    | false => exact .fail _
  | .pass => .pure rfl

theorem lowerElse_agree (h : SameContext K o cx cx') (i j : Nat) (inLoop : Bool) :
    (body : List Stmt) → Agree K o i j (lowerElse cx i inLoop body) (lowerElse cx' j inLoop body)
      (SameElse K.Same)
  | [] => .pure trivial
  | s :: rest =>
    ((lowerStmt_agree h i j inLoop s).andThen fun _ =>
      lowerBody_agree h i j inLoop rest).codeOf.bind fun _ _ hsteps => .pure hsteps

theorem lowerBody_agree (h : SameContext K o cx cx') (i j : Nat) (inLoop : Bool) :
    (body : List Stmt) → Agree K o i j (lowerBody cx i inLoop body) (lowerBody cx' j inLoop body) Eq
  | [] => .pure rfl
  | s :: rest =>
    (lowerStmt_agree h i j inLoop s).andThen fun _ => lowerBody_agree h i j inLoop rest

end

end Goward
