import Goward.Scope.Names

/-!
# Runs of builds

How a build succeeds or fails, in terms of its parts, and what builds do to the scope tree. A
property that every single action and change of resources has, and that passes to builds in a row,
is one of all builds that are put together from them.
-/

namespace Goward

/-- The cause of failure at a `yield` outside of every generator. -/
def yieldOutside : Cause := .unsupported "'yield' outside function"

namespace Build

open Goward.Code

variable {α β : Type}

/-- Whether a computation succeeds can be computed. -/
theorem ok_of_toBool {x : Except Error α} (h : x.toBool = true) : ∃ a, x = .ok a := by
  cases x with
  | error e => cases h
  | ok a => exact ⟨a, rfl⟩

theorem run_bind_ok {b : Build α} {f : α → Build β} {t : ScopeTree} {r : Built β} :
    (b >>= f).run t = .ok r ↔
      ∃ first, b.run t = .ok first ∧ ∃ second, (f first.value).run first.tree = .ok second ∧
        r = ⟨second.value, first.code ++ second.code, second.tree⟩ := by
  simp only [run, bind, Build.bind]
  cases b t with
  | error e => simp
  | ok first =>
    cases h : f first.value first.tree with
    | error e => simp [h]
    | ok second => simp [h, eq_comm]

theorem run_bind_error {b : Build α} {f : α → Build β} {t : ScopeTree} {e : Error} :
    (b >>= f).run t = .error e ↔
      b.run t = .error e ∨
        ∃ first, b.run t = .ok first ∧ (f first.value).run first.tree = .error e := by
  simp only [run, bind, Build.bind]
  cases b t with
  | error e' => simp
  | ok first =>
    cases h : f first.value first.tree with
    | error e' => simp [h]
    | ok second => simp [h]

@[simp] theorem run_pure (a : α) (t : ScopeTree) :
    (pure a : Build α).run t = .ok ⟨a, [], t⟩ := rfl

@[simp] theorem run_tree (t : ScopeTree) : tree.run t = .ok ⟨t, [], t⟩ := rfl

@[simp] theorem run_onTree (f : ScopeTree → α × ScopeTree) (t : ScopeTree) :
    (onTree f).run t = .ok ⟨(f t).1, [], (f t).2⟩ := rfl

@[simp] theorem run_emit (s : Step) (t : ScopeTree) : (emit s).run t = .ok ⟨(), [s], t⟩ := rfl

@[simp] theorem run_act (a : Action) (t : ScopeTree) :
    (act a).run t = .ok ⟨(), [.action a], t⟩ := rfl

@[simp] theorem run_intern (s : String) (t : ScopeTree) :
    (intern s).run t = .ok ⟨(t.intern s).1, [], (t.intern s).2⟩ := rfl

@[simp] theorem run_lift_ok {x : Except Error α} {t : ScopeTree} {r : Built α} :
    (lift x).run t = .ok r ↔ ∃ a, x = .ok a ∧ r = ⟨a, [], t⟩ := by
  cases x <;> simp [run, lift, eq_comm]

@[simp] theorem run_lift_error {x : Except Error α} {t : ScopeTree} {e : Error} :
    (lift x).run t = .error e ↔ x = .error e := by
  cases x <;> simp [run, lift]

@[simp] theorem run_fail (c : Cause) (t : ScopeTree) :
    (fail c : Build α).run t = .error { cause := c } := rfl

@[simp] theorem run_require_ok {b : Bool} {c : Cause} {t : ScopeTree} {r : Built Unit} :
    (require b c).run t = .ok r ↔ b = true ∧ r = ⟨(), [], t⟩ := by
  cases b <;> simp [require, eq_comm]

@[simp] theorem run_collect_ok {b : Build α} {t : ScopeTree} {r : Built (α × List Step)} :
    (collect b).run t = .ok r ↔
      ∃ inner, b.run t = .ok inner ∧ r = ⟨(inner.value, inner.code), [], inner.tree⟩ := by
  simp only [run, collect]
  cases b t <;> simp [eq_comm]

@[simp] theorem run_codeOf_ok {b : Build Unit} {t : ScopeTree} {r : Built (List Step)} :
    (codeOf b).run t = .ok r ↔
      ∃ inner, b.run t = .ok inner ∧ r = ⟨inner.code, [], inner.tree⟩ := by
  simp only [codeOf, run_bind_ok, run_collect_ok, run_pure]
  constructor
  · rintro ⟨_, ⟨inner, h, rfl⟩, _, h', rfl⟩
    cases h'
    exact ⟨inner, h, rfl⟩
  · rintro ⟨inner, h, rfl⟩
    exact ⟨_, ⟨inner, h, rfl⟩, _, rfl, rfl⟩

theorem run_collect_error {b : Build α} {t : ScopeTree} {e : Error} :
    (collect b).run t = .error e ↔ b.run t = .error e := by
  simp only [run, collect]
  cases b t <;> simp

theorem run_codeOf_error {b : Build Unit} {t : ScopeTree} {e : Error} :
    (codeOf b).run t = .error e ↔ b.run t = .error e := by
  simp only [codeOf, run_bind_error, run_collect_error, run_pure, reduceCtorEq, and_false,
    exists_false, or_false]

@[simp] theorem run_locate_ok {span : Span} {b : Build α} {t : ScopeTree} {r : Built α} :
    (locate span b).run t = .ok r ↔ b.run t = .ok r := by
  simp only [run, locate]
  split
  · rfl
  · cases b t with
    | ok _ => exact Iff.rfl
    | error _ => exact ⟨nofun, nofun⟩

/-- Giving an error a place keeps its cause. -/
theorem run_locate_error {span : Span} {b : Build α} {t : ScopeTree} {e : Error}
    (h : (locate span b).run t = .error e) : ∃ e', b.run t = .error e' ∧ e'.cause = e.cause := by
  simp only [run, locate] at h ⊢
  split at h
  · exact ⟨e, h, rfl⟩
  · cases hb : b t with
    | ok r =>
      rw [hb] at h
      cases h
    | error e' =>
      rw [hb] at h
      obtain rfl : e'.locate span = e := Except.error.inj h
      refine ⟨e', rfl, ?_⟩
      rw [Error.locate]
      split <;> rfl

theorem run_free_ok {id : Nat} {v : Temp} {t : ScopeTree} {r : Built Unit} :
    (updateTree (·.free id v)).run t = .ok r ↔ ∃ u, t.free id v = .ok u ∧ r = ⟨(), [], u⟩ := by
  simp only [run, updateTree]
  cases t.free id v <;> simp [eq_comm]

/-- Giving back fails only because the variable is not in use. -/
theorem run_free_error {id : Nat} {v : Temp} {t : ScopeTree} {e : Error}
    (h : (updateTree (·.free id v)).run t = .error e) :
    e.cause = .tempNotInUse v.name ∧ (t.resources id).pool.isInUse v = false := by
  simp only [run, updateTree, ScopeTree.free, Resources.free, Pool.free] at h
  cases huse : (t.resources id).pool.isInUse v with
  | true => simp [huse, Except.map] at h
  | false =>
    simp only [huse, Except.map, Bool.false_eq_true, if_false, Except.error.injEq] at h
    exact ⟨h ▸ rfl, rfl⟩

theorem run_acquire (id : Nat) (type : String) (t : ScopeTree) :
    (acquire id type).run t =
      .ok ⟨(t.alloc id type).1, [.action (.acquire (t.alloc id type).1)], (t.alloc id type).2⟩ :=
  rfl

theorem run_release_ok {id : Nat} {v : Temp} {t : ScopeTree} {r : Built Unit} :
    (release id v).run t = .ok r ↔
      ∃ t', t.free id v = .ok t' ∧ r = ⟨(), [.action (.release v)], t'⟩ := by
  simp only [release, run_bind_ok, run_act, run_free_ok]
  constructor
  · rintro ⟨_, ⟨u, h, rfl⟩, _, h', rfl⟩
    cases h'
    exact ⟨u, h, rfl⟩
  · rintro ⟨u, h, rfl⟩
    exact ⟨_, ⟨u, h, rfl⟩, _, rfl, rfl⟩

theorem run_callInto (id : Nat) (type : String) (c : Call) (t : ScopeTree) :
    (callInto id type c).run t =
      .ok ⟨(t.alloc id type).1,
        [.action (.acquire (t.alloc id type).1), .action (.store (t.alloc id type).1 c)],
        (t.alloc id type).2⟩ := rfl

/-! ### Changes of the tree -/

/-- A relation between the trees before and after a change that is respected by every change that
lowering makes, and so by changes in a row. -/
structure TreeRelation (R : ScopeTree → ScopeTree → Prop) : Prop where
  refl : ∀ t, R t t
  trans : ∀ {t u v}, R t u → R u v → R t v
  alloc : ∀ t id type, R t (t.alloc id type).2
  free : ∀ {t id v t'}, t.free id v = .ok t' → R t t'
  intern : ∀ t s, R t (t.intern s).2
  addImport : ∀ t path, R t (t.addImport path).2
  addNative : ∀ t path, R t (t.addNative path).2
  push : ∀ t parent name kind, R t (t.push parent name kind).2

/-- A build that leaves behind a tree related to the one it starts from. -/
def Keeps (R : ScopeTree → ScopeTree → Prop) (b : Build α) : Prop :=
  ∀ t r, b.run t = .ok r → R t r.tree

namespace Keeps

variable {R : ScopeTree → ScopeTree → Prop}

theorem bind (hR : TreeRelation R) {b : Build α} {f : α → Build β} (hb : Keeps R b)
    (hf : ∀ a, Keeps R (f a)) : Keeps R (b >>= f) := by
  intro t r h
  obtain ⟨first, h₁, second, h₂, rfl⟩ := run_bind_ok.mp h
  exact hR.trans (hb t first h₁) (hf first.value first.tree second h₂)

theorem pure (hR : TreeRelation R) (a : α) : Keeps R (pure a) := by
  intro t r h
  cases h
  exact hR.refl t

theorem tree (hR : TreeRelation R) : Keeps R Build.tree := by
  intro t r h
  cases h
  exact hR.refl t

theorem onTree {f : ScopeTree → α × ScopeTree} (hf : ∀ t, R t (f t).2) :
    Keeps R (Build.onTree f) := by
  intro t r h
  cases h
  exact hf t

theorem emit (hR : TreeRelation R) (s : Step) : Keeps R (emit s) := by
  intro t r h
  cases h
  exact hR.refl t

theorem act (hR : TreeRelation R) (a : Action) : Keeps R (act a) := emit hR _

theorem lift (hR : TreeRelation R) (x : Except Error α) : Keeps R (lift x) := by
  intro t r h
  obtain ⟨a, -, rfl⟩ := run_lift_ok.mp h
  exact hR.refl t

theorem fail (c : Cause) : Keeps R (fail c : Build α) := by
  intro t r h
  cases h

theorem require (hR : TreeRelation R) (b : Bool) (c : Cause) : Keeps R (require b c) := by
  intro t r h
  obtain ⟨-, rfl⟩ := run_require_ok.mp h
  exact hR.refl t

theorem collect {b : Build α} (hb : Keeps R b) : Keeps R (collect b) := by
  intro t r h
  obtain ⟨inner, hi, rfl⟩ := run_collect_ok.mp h
  exact hb t inner hi

theorem codeOf {b : Build Unit} (hb : Keeps R b) : Keeps R (codeOf b) := by
  intro t r h
  obtain ⟨inner, hi, rfl⟩ := run_codeOf_ok.mp h
  exact hb t inner hi

theorem locate {span : Span} {b : Build α} (hb : Keeps R b) : Keeps R (locate span b) :=
  fun t r h => hb t r (run_locate_ok.mp h)

end Keeps

/-- The slot that an action binds or unbinds. -/
def slot? : Action → Option String
  | .setSlot x _ | .clearSlot x => some x
  | _ => none

/-- A property of builds that changes of resources and all actions but those on slots have, and that
passes to builds in a row. -/
structure PlainProperty (Q : {α : Type} → Build α → Prop) : Prop where
  pure : ∀ {α : Type} (a : α), Q (pure a : Build α)
  bind : ∀ {α β : Type} {b : Build α} {f : α → Build β}, Q b → (∀ a, Q (f a)) → Q (b >>= f)
  tree : Q tree
  plain : ∀ a, slot? a = none → Q (act a)
  alloc : ∀ id type, Q (onTree (·.alloc id type))
  free : ∀ id v, Q (updateTree (·.free id v))
  intern : ∀ s, Q (intern s)
  addImport : ∀ path, Q (onTree (·.addImport path))
  addNative : ∀ path, Q (onTree (·.addNative path))

namespace PlainProperty

variable {Q : {α : Type} → Build α → Prop}

theorem acquire (h : PlainProperty Q) (id : Nat) (type : String) : Q (acquire id type) :=
  h.bind (h.alloc id type) fun _ => h.bind (h.plain _ rfl) fun _ => h.pure _

theorem release (h : PlainProperty Q) (id : Nat) (v : Temp) : Q (release id v) :=
  h.bind (h.free id v) fun _ => h.plain _ rfl

theorem releaseValue (h : PlainProperty Q) (id : Nat) (v : Value) : Q (releaseValue id v) := by
  unfold Build.releaseValue
  split
  · exact h.release id _
  · exact h.pure ()

theorem releaseAll (h : PlainProperty Q) (id : Nat) (vs : List Value) : Q (releaseAll id vs) := by
  induction vs with
  | nil => exact h.pure ()
  | cons v rest ih => exact h.bind (h.releaseValue id v) fun _ => ih

theorem callInto (h : PlainProperty Q) (id : Nat) (type : String) (c : Call) :
    Q (callInto id type c) :=
  h.bind (h.acquire id type) fun _ => h.bind (h.plain _ rfl) fun _ => h.pure _

theorem readName (h : PlainProperty Q) (id : Nat) (x : String) : Q (readName id x) := by
  refine h.bind h.tree fun t => ?_
  split
  · exact h.bind (h.intern x) fun _ => h.bind (h.callInto id _ _) fun _ => h.pure _
  · exact h.bind (h.intern x) fun _ => h.bind (h.callInto id _ _) fun _ => h.pure _
  · exact h.bind (h.plain _ rfl) fun _ => h.pure _

end PlainProperty

/-- A property of builds that single actions and changes of resources have, and that passes to
builds in a row. -/
structure ActionProperty (Q : {α : Type} → Build α → Prop) : Prop extends PlainProperty Q where
  act : ∀ a, Q (act a)
  plain := fun a _ => act a

/-- A property of builds that failing has as well, unless it is for a `yield`. -/
structure Property (Q : {α : Type} → Build α → Prop) : Prop extends ActionProperty Q where
  fail : ∀ {α : Type} {c : Cause}, c ≠ yieldOutside → Q (fail c : Build α)

namespace Property

variable {Q : {α : Type} → Build α → Prop}

theorem require (h : Property Q) (b : Bool) {c : Cause} (hc : c ≠ yieldOutside) :
    Q (require b c) := by
  unfold Build.require
  split
  · exact h.pure ()
  · exact h.fail hc

theorem storeName (h : Property Q) (id : Nat) (x : String) (v : Value) : Q (storeName id x v) := by
  refine h.bind h.tree fun t => ?_
  split
  · exact h.fail (by simp [yieldOutside])
  · exact h.bind (h.intern x) fun _ => h.act _
  · exact h.bind (h.intern x) fun _ => h.act _
  · exact h.act _

theorem deleteName (h : Property Q) (id : Nat) (x : String) : Q (deleteName id x) := by
  refine h.bind h.tree fun t => ?_
  split
  · exact h.fail (by simp [yieldOutside])
  · exact h.bind (h.intern x) fun _ => h.act _
  · exact h.bind (h.intern x) fun _ => h.act _
  · exact h.bind (h.act _) fun _ => h.act _

end Property

/-- A build whose result has a property. -/
def Gives (P : α → Prop) (b : Build α) : Prop := ∀ t r, b.run t = .ok r → P r.value

namespace Gives

variable {P : β → Prop}

theorem pure {a : β} (h : P a) : Gives P (pure a) := by
  intro t r hr
  cases hr
  exact h

theorem bind {b : Build α} {f : α → Build β} (hf : ∀ a, Gives P (f a)) : Gives P (b >>= f) := by
  intro t r hr
  obtain ⟨first, -, second, h₂, rfl⟩ := run_bind_ok.mp hr
  exact hf first.value first.tree second h₂

end Gives

end Build

end Goward
