import Goward.Proofs.Isolation

/-!
# Refused operations

A build that fails says nothing about the tree at that point. Here stores, deletes and reads of names
and the return of scratch variables work in place: one tree and one code that change with every single
action, also if a later one fails. They carry out the builds of the same names. Main result: they
fail exactly if the scope is a function that does not list the name, or if the scratch variable was
not handed out or was given back, and one that fails leaves the tree and the code as they were.
-/

namespace Goward

open Goward.Build Goward.Code

/-- The tree and the code put down so far. -/
structure Bench where
  tree : ScopeTree
  code : List Step

/-- A computation that works on a bench. What it did before it fails stays done. -/
def InPlace (α : Type) := Bench → Except Error α × Bench

namespace InPlace

/-- Runs a computation on a bench. -/
def run {α : Type} (m : InPlace α) (w : Bench) : Except Error α × Bench := m w

/-- The computation that does nothing. -/
protected def pure {α : Type} (a : α) : InPlace α := fun w => (.ok a, w)

/-- One computation after another, unless the first one fails. -/
protected def bind {α β : Type} (m : InPlace α) (f : α → InPlace β) : InPlace β := fun w =>
  match m w with
  | (.ok a, w') => f a w'
  | (.error e, w') => (.error e, w')

instance : Monad InPlace where
  pure := InPlace.pure
  bind := InPlace.bind

/-- The tree as it is. -/
def tree : InPlace ScopeTree := fun w => (.ok w.tree, w)

/-- Changes the tree. -/
def onTree {α : Type} (f : ScopeTree → α × ScopeTree) : InPlace α := fun w =>
  (.ok (f w.tree).1, { w with tree := (f w.tree).2 })

/-- Fails without a place. -/
def fail {α : Type} (c : Cause) : InPlace α := fun w => (.error { cause := c }, w)

/-- Puts down an action. -/
def act (a : Action) : InPlace Unit := fun w => (.ok (), { w with code := w.code ++ [.action a] })

/-- The reference to a string. -/
def intern (s : String) : InPlace StringRef := onTree (·.intern s)

/-- Takes a scratch variable of a scope into use. -/
def acquire (id : Nat) (type : String) : InPlace Temp := do
  let t ← onTree (·.alloc id type)
  act (.acquire t)
  return t

/-- Calls the runtime and stores the result in a fresh scratch variable. -/
def callInto (id : Nat) (type : String) (c : Call) : InPlace Temp := do
  let t ← acquire id type
  act (.store t c)
  return t

/-- Stores a value in a name. -/
def storeName (id : Nat) (x : String) (v : Value) : InPlace Unit := do
  match (← tree).home? id x with
  | some .globals => act (.perform (.setItem .globals (← intern x) v))
  | some .classBody => act (.perform (.setItem .classBody (← intern x) v))
  | some .slot => act (.setSlot x v)
  | none => fail (.unclassifiedName x)

/-- Deletes a name. -/
def deleteName (id : Nat) (x : String) : InPlace Unit := do
  match (← tree).home? id x with
  | some .globals => act (.perform (.delVar .globals (← intern x)))
  | some .classBody => act (.perform (.delVar .classBody (← intern x)))
  | some .slot => do
    act (.perform (.checkLocal x))
    act (.clearSlot x)
  | none => fail (.deleteNonexistentLocal x)

/-- Reads a name. -/
def readName (id : Nat) (x : String) : InPlace Value := do
  match (← tree).access id x with
  | .globals => do
    let key ← intern x
    return .temp (← callInto id Temp.objectType (.resolveGlobal key))
  | .classBody closure => do
    let outer := if closure then some x else none
    let key ← intern x
    return .temp (← callInto id Temp.objectType (.resolveClass outer key))
  | .slot => do
    act (.perform (.checkLocal x))
    return .slot x

end InPlace

/-- Moves a scratch variable of a scope from those in use to the others, and tells whether it was in
use. -/
def ScopeTree.takeOut (t : ScopeTree) (id : Nat) (v : Temp) : Bool × ScopeTree :=
  t.onResources id fun r => (r.pool.isInUse v, { r with pool := r.pool.mark v false })

namespace InPlace

/-- Gives back a scratch variable of a scope. Whether it was in use is known only after it is moved. -/
def release (id : Nat) (v : Temp) : InPlace Unit := do
  let wasInUse ← onTree (·.takeOut id v)
  if wasInUse then act (.release v) else fail (.tempNotInUse v.name)

/-- Gives back the scratch variable that a value is, if it is one. -/
def releaseValue (id : Nat) (v : Value) : InPlace Unit :=
  match v.temp? with
  | some t => release id t
  | none => pure ()

end InPlace

/-- The computation does on every bench what the build does: it succeeds with the same value, tree and
code, or it fails with the same error. -/
structure Build.DoneBy {α : Type} (b : Build α) (m : InPlace α) : Prop where
  ok : ∀ {t r}, b.run t = .ok r → ∀ code, m.run ⟨t, code⟩ = (.ok r.value, ⟨r.tree, code ++ r.code⟩)
  error : ∀ {t e}, b.run t = .error e → ∀ code, ∃ w, m.run ⟨t, code⟩ = (.error e, w)

namespace InPlace

variable {α β : Type} {m : InPlace α} {f : α → InPlace β} {w w' : Bench}

theorem run_bind_ok {a : α} (h : m.run w = (.ok a, w')) : (m >>= f).run w = (f a).run w' := by
  rw [run] at h
  simp only [run, bind, InPlace.bind, h]

theorem run_bind_error {e : Error} (h : m.run w = (.error e, w')) :
    (m >>= f).run w = (.error e, w') := by
  rw [run] at h
  simp only [run, bind, InPlace.bind, h]

end InPlace

namespace Build.DoneBy

variable {α β : Type}

/-- A build that succeeds on every tree. -/
theorem of_ok {b : Build α} {m : InPlace α} (r : ScopeTree → Built α) (hb : ∀ t, b.run t = .ok (r t))
    (hm : ∀ t code, m.run ⟨t, code⟩ = (.ok (r t).value, ⟨(r t).tree, code ++ (r t).code⟩)) :
    b.DoneBy m where
  ok h code := by
    rw [hb, Except.ok.injEq] at h
    subst h
    exact hm _ code
  error h := by
    rw [hb] at h
    cases h

theorem pure (a : α) : DoneBy (Pure.pure a) (Pure.pure a) := by
  refine of_ok (fun t => ⟨a, [], t⟩) (fun _ => rfl) fun t code => ?_
  rw [List.append_nil]
  rfl

theorem tree : Build.tree.DoneBy InPlace.tree := by
  refine of_ok (fun t => ⟨t, [], t⟩) (fun _ => rfl) fun t code => ?_
  rw [List.append_nil]
  rfl

theorem onTree (f : ScopeTree → α × ScopeTree) : (Build.onTree f).DoneBy (InPlace.onTree f) := by
  refine of_ok (fun t => ⟨(f t).1, [], (f t).2⟩) (fun _ => rfl) fun t code => ?_
  rw [List.append_nil]
  rfl

theorem act (a : Action) : (Build.act a).DoneBy (InPlace.act a) :=
  of_ok (fun t => ⟨(), [.action a], t⟩) (fun _ => rfl) fun _ _ => rfl

theorem fail (c : Cause) : (Build.fail c : Build α).DoneBy (InPlace.fail c) where
  ok h := by cases h
  error h code := by
    cases h
    exact ⟨_, rfl⟩

theorem bind {b : Build α} {m : InPlace α} {f : α → Build β} {g : α → InPlace β} (hb : b.DoneBy m)
    (hf : ∀ a, (f a).DoneBy (g a)) : (b >>= f).DoneBy (m >>= g) where
  ok h code := by
    obtain ⟨first, h₁, second, h₂, rfl⟩ := Build.run_bind_ok.mp h
    rw [InPlace.run_bind_ok (hb.ok h₁ code), (hf first.value).ok h₂, List.append_assoc]
  error h code := by
    rcases Build.run_bind_error.mp h with h₁ | ⟨first, h₁, h₂⟩
    · obtain ⟨w, hw⟩ := hb.error h₁ code
      exact ⟨w, InPlace.run_bind_error hw⟩
    · rw [InPlace.run_bind_ok (hb.ok h₁ code)]
      exact (hf first.value).error h₂ _

theorem acquire (id : Nat) (type : String) :
    (Build.acquire id type).DoneBy (InPlace.acquire id type) :=
  (onTree _).bind fun t => (act (.acquire t)).bind fun _ => pure t

theorem callInto (id : Nat) (type : String) (c : Call) :
    (Build.callInto id type c).DoneBy (InPlace.callInto id type c) :=
  (acquire id type).bind fun t => (act (.store t c)).bind fun _ => pure t

theorem storeName (id : Nat) (x : String) (v : Value) :
    (Build.storeName id x v).DoneBy (InPlace.storeName id x v) := by
  refine tree.bind fun t => ?_
  cases t.home? id x with
  | none => exact fail _
  | some home =>
    cases home with
    | globals | classBody => exact (onTree _).bind fun key => act _
    | slot => exact act _

theorem deleteName (id : Nat) (x : String) :
    (Build.deleteName id x).DoneBy (InPlace.deleteName id x) := by
  refine tree.bind fun t => ?_
  cases t.home? id x with
  | none => exact fail _
  | some home =>
    cases home with
    | globals | classBody => exact (onTree _).bind fun key => act _
    | slot => exact (act _).bind fun _ => act _

theorem readName (id : Nat) (x : String) :
    (Build.readName id x).DoneBy (InPlace.readName id x) := by
  refine tree.bind fun t => ?_
  cases t.access id x with
  | globals => exact (onTree _).bind fun key => (callInto id _ _).bind fun w => pure _
  | classBody closure => exact (onTree _).bind fun key => (callInto id _ _).bind fun w => pure _
  | slot => exact (act _).bind fun _ => pure _

end Build.DoneBy

/-! ### Giving back -/

namespace ScopeTree

variable {t : ScopeTree} {id : Nat} {v : Temp}

theorem setResources_self (t : ScopeTree) (id : Nat) : t.setResources id (t.resources id) = t := by
  have hscopes : (t.scopes.modify id fun s => { s with resources := t.resources id }) = t.scopes := by
    refine List.ext_getElem? fun i => ?_
    rw [List.getElem?_modify]
    by_cases hi : id = i
    · subst hi
      rw [resources, scope?]
      cases t.scopes[id]? with
      | none => rfl
      | some s => simp
    · cases t.scopes[i]? with
      | none => rfl
      | some s => simp [hi]
  rw [setResources, hscopes]

theorem takeOut_of_inUse (h : t.InUse id v) :
    (t.takeOut id v).1 = true ∧ t.free id v = .ok (t.takeOut id v).2 := by
  refine ⟨h, ?_⟩
  rw [InUse] at h
  simp only [free, Resources.free, Pool.free, h, if_true]
  rfl

theorem takeOut_of_not_inUse (h : ¬t.InUse id v) :
    t.takeOut id v = (false, t) ∧ t.free id v = .error { cause := .tempNotInUse v.name } := by
  have hpool := Pool.mark_false_of_not_isInUse h
  rw [InUse] at h
  constructor
  · simp only [takeOut, onResources, h, hpool]
    exact congrArg (Prod.mk false) (setResources_self t id)
  · simp only [free, Resources.free, Pool.free, h]
    rfl

end ScopeTree

section Release

variable {t : ScopeTree} {id : Nat} {v : Temp} {code : List Step}

theorem InPlace.release_of_inUse (h : t.InUse id v) :
    (InPlace.release id v).run ⟨t, code⟩ =
      (.ok (), ⟨(t.takeOut id v).2, code ++ [.action (.release v)]⟩) := by
  have htake : (t.takeOut id v).1 = true := (ScopeTree.takeOut_of_inUse h).1
  have hmove : (InPlace.onTree (·.takeOut id v)).run ⟨t, code⟩ =
      (.ok true, ⟨(t.takeOut id v).2, code⟩) := by
    rw [← htake]
    rfl
  rw [release, run_bind_ok hmove]
  rfl

theorem InPlace.release_of_not_inUse (h : ¬t.InUse id v) :
    (InPlace.release id v).run ⟨t, code⟩ =
      (.error { cause := .tempNotInUse v.name }, ⟨t, code⟩) := by
  have htake : t.takeOut id v = (false, t) := (ScopeTree.takeOut_of_not_inUse h).1
  have hmove : (InPlace.onTree (·.takeOut id v)).run ⟨t, code⟩ = (.ok false, ⟨t, code⟩) := by
    show (Except.ok (t.takeOut id v).1, Bench.mk (t.takeOut id v).2 code) = _
    rw [htake]
  rw [release, run_bind_ok hmove]
  rfl

theorem Build.release_of_inUse (h : t.InUse id v) :
    (Build.release id v).run t = .ok ⟨(), [.action (.release v)], (t.takeOut id v).2⟩ := by
  have hfree := (ScopeTree.takeOut_of_inUse h).2
  simp only [release, run, Bind.bind, Build.bind, updateTree, hfree]
  rfl

theorem Build.release_of_not_inUse (h : ¬t.InUse id v) :
    (Build.release id v).run t = .error { cause := .tempNotInUse v.name } := by
  have hfree := (ScopeTree.takeOut_of_not_inUse h).2
  simp only [release, run, Bind.bind, Build.bind, updateTree, hfree]

theorem Build.DoneBy.release (id : Nat) (v : Temp) :
    (Build.release id v).DoneBy (InPlace.release id v) where
  ok {t r} h code := by
    by_cases hv : t.InUse id v
    · rw [release_of_inUse hv, Except.ok.injEq] at h
      subst h
      exact InPlace.release_of_inUse hv
    · rw [release_of_not_inUse hv] at h
      cases h
  error {t e} h code := by
    by_cases hv : t.InUse id v
    · rw [release_of_inUse hv] at h
      cases h
    · rw [release_of_not_inUse hv, Except.error.injEq] at h
      subst h
      exact ⟨_, InPlace.release_of_not_inUse hv⟩

theorem Build.DoneBy.releaseValue (id : Nat) (v : Value) :
    (Build.releaseValue id v).DoneBy (InPlace.releaseValue id v) := by
  rw [Build.releaseValue, InPlace.releaseValue]
  cases v.temp? with
  | none => exact pure ()
  | some t => exact release id t

end Release

/-- The scratch variable that a step gives back. -/
def TreeOp.returned? : TreeOp → Option Temp
  | request _ (.free v) => some v
  | freeValue _ v => v.temp?
  | request _ (.alloc _) | request _ (.label _) | request _ .openLoop | request _ .closeLoop
  | enterFunction _ _ _ | enterClass _ _ _ | store _ _ _ | delete _ _ | read _ _ | addImport _
  | addNative _ | intern _ => none

/-- The step hands out a scratch variable of the scope. -/
def HandsOut (id : Nat) (v : Temp) (taken : TreeOp × Answer) : Prop :=
  taken.1.scope? = some id ∧ taken.2.granted? = some (.temp v)

/-- The step gives a scratch variable back to the scope. -/
def GivesBack (id : Nat) (v : Temp) (taken : TreeOp × Answer) : Prop :=
  taken.1.scope? = some id ∧ taken.1.returned? = some v

/-- A scratch variable was handed out by a scope and was not given back since. -/
def History.Holds (h : History) (id : Nat) (v : Temp) : Prop :=
  ∃ before taken after, h = before ++ taken :: after ∧ HandsOut id v taken ∧
    ∀ later ∈ after, ¬GivesBack id v later

namespace History

variable {h : History} {id : Nat} {v : Temp}

theorem not_holds_nil : ¬Holds [] id v := by
  rintro ⟨before, taken, after, hsplit, -⟩
  simp at hsplit

theorem holds_concat {taken : TreeOp × Answer} :
    Holds (h ++ [taken]) id v ↔ HandsOut id v taken ∨ (h.Holds id v ∧ ¬GivesBack id v taken) := by
  constructor
  · rintro ⟨before, first, after, hsplit, hout, hkept⟩
    rcases List.eq_nil_or_concat after with rfl | ⟨after, last, rfl⟩
    · left
      obtain ⟨-, hlast⟩ := List.append_inj' hsplit rfl
      rwa [List.singleton_inj.mp hlast]
    · right
      rw [List.concat_eq_append, ← List.cons_append, ← List.append_assoc] at hsplit
      obtain ⟨rfl, hlast⟩ := List.append_inj' hsplit rfl
      obtain rfl := List.singleton_inj.mp hlast
      refine ⟨⟨before, first, after, rfl, hout, fun later hlater => hkept later ?_⟩, hkept _ ?_⟩
      · simp [hlater]
      · simp
  · rintro (hout | ⟨⟨before, first, after, rfl, hout, hkept⟩, hback⟩)
    · exact ⟨h, taken, [], rfl, hout, fun later hlater => absurd hlater List.not_mem_nil⟩
    · refine ⟨before, first, after ++ [taken], by simp, hout, fun later hlater => ?_⟩
      rcases List.mem_append.mp hlater with hlater | hlater
      · exact hkept later hlater
      · obtain rfl := List.mem_singleton.mp hlater
        exact hback

end History

/-- A request brings into use what it is answered with, and takes out of use what it gives back. -/
theorem Resources.grant_isInUse (r : Resources) (op : ResourceOp) (v : Temp) :
    (r.grant op).2.pool.isInUse v = true ↔
      (r.grant op).1 = .temp v ∨ (r.pool.isInUse v = true ∧ op ≠ .free v) := by
  cases op with
  | alloc type =>
    have hanswer : Granted.temp (r.pool.alloc type).1 = .temp v ↔ v = (r.pool.alloc type).1 := by
      rw [Granted.temp.injEq]
      exact eq_comm
    rw [grant, alloc, Pool.alloc_isInUse, hanswer]
    simp [or_comm]
  | free w =>
    cases hfree : r.pool.free w with
    | ok q =>
      have hstep : q.isInUse v = true ↔ r.pool.isInUse v = true ∧ v ≠ w := Pool.free_isInUse hfree
      have hne : ResourceOp.free w ≠ .free v ↔ v ≠ w := by
        rw [ne_eq, ResourceOp.free.injEq]
        exact ne_comm
      rw [hne, ← hstep]
      simp [grant, free, hfree, Except.map]
    | error e =>
      have hw : ¬r.pool.isInUse w = true := by
        intro hw
        rw [Pool.free, if_pos hw] at hfree
        cases hfree
      simp only [grant, free, hfree, Except.map]
      constructor
      · intro hv
        refine .inr ⟨hv, ?_⟩
        rintro heq
        cases heq
        exact hw hv
      · rintro (hv | ⟨hv, -⟩)
        · cases hv
        · exact hv
  | label isCheckpoint => simp [grant, label]
  | openLoop => simp [grant, openLoop]
  | closeLoop => simp [grant, closeLoop]

namespace TreeOp

variable {t : ScopeTree} {op : TreeOp} {id : Nat} {v : Temp}

theorem chargeTo?_eq_free :
    op.chargeTo? t id = some (.free v) ↔ op.scope? = some id ∧ op.returned? = some v := by
  rw [chargeTo?]
  by_cases hid : op.scope? = some id
  · rw [if_pos hid]
    simp only [hid, true_and]
    cases op with
    | request _ op => cases op <;> simp [charge?, returned?]
    | freeValue _ w => simp [charge?, returned?]
    | read i x => simp [charge?, returned?]
    | enterFunction _ _ _ | enterClass _ _ _ | store _ _ _ | delete _ _ | addImport _ | addNative _
    | intern _ => simp [charge?, returned?]
  · simp [hid]

/-- A step brings into use what it hands out, and takes out of use what it gives back. -/
theorem run_inUse (hop : ∀ id, op.scope? = some id → (t.scope? id).isSome) :
    (op.run t).2.InUse id v ↔
      HandsOut id v (op, (op.run t).1) ∨
        (t.InUse id v ∧ ¬GivesBack id v (op, (op.run t).1)) := by
  have hgrants := run_grants hop id
  have hback : GivesBack id v (op, (op.run t).1) ↔ op.chargeTo? t id = some (.free v) :=
    chargeTo?_eq_free.symm
  have hout : HandsOut id v (op, (op.run t).1) ↔
      .temp v ∈ History.granted [(op, (op.run t).1)] id := by
    simp [HandsOut, History.granted, List.mem_filterMap]
  rw [hback, hout]
  cases hcharge : op.chargeTo? t id with
  | none =>
    rw [hcharge, Option.toList_none, Resources.grantAll, Prod.mk.injEq] at hgrants
    rw [hgrants.1, ScopeTree.InUse, hgrants.2]
    simp [ScopeTree.InUse]
  | some r =>
    rw [hcharge, Option.toList_some, Resources.grantAll, Resources.grantAll, Prod.mk.injEq] at hgrants
    rw [hgrants.1, ScopeTree.InUse, hgrants.2, Resources.grant_isInUse, List.mem_singleton, ne_eq,
      Option.some.injEq, ScopeTree.InUse]
    exact or_congr eq_comm Iff.rfl

end TreeOp

/-- What is in use in a scope was handed out by it and not given back since. -/
theorem Runs.inUse_iff {o : Options} {h : History} {t : ScopeTree} (hr : Runs o h t) (id : Nat)
    (v : Temp) : t.InUse id v ↔ h.Holds id v := by
  induction hr with
  | start =>
    rw [ScopeTree.InUse, ScopeTree.resources_ofOptions]
    constructor
    · intro h
      cases h
    · intro h
      exact absurd h History.not_holds_nil
  | step op _ hop ih => rw [TreeOp.run_inUse hop, History.holds_concat, ih]

/-! ### Names that a function does not list -/

/-- The scope is a function whose own map lacks the name. -/
def ScopeTree.Lacks (t : ScopeTree) (id : Nat) (x : String) : Prop :=
  ∃ s f, t.scope? id = some s ∧ s.kind = .function f ∧ ∀ v ∈ f.vars.toList, v.name ≠ x

theorem VarMap.find?_eq_none_iff {m : VarMap} {x : String} :
    m.find? x = none ↔ ∀ v ∈ m.toList, v.name ≠ x := by
  simp [VarMap.find?]

theorem ScopeTree.home?_eq_none_iff {t : ScopeTree} {id : Nat} {x : String} :
    t.home? id x = none ↔ t.Lacks id x := by
  cases hs : t.scope? id with
  | none => simp [home?, Lacks, hs]
  | some s =>
    cases hkind : s.kind with
    | module => simp [home?, Lacks, hs, hkind]
    | classBody globals => simp [home?, Lacks, hs, hkind]
    | function f =>
      have hlacks : t.Lacks id x ↔ f.vars.find? x = none := by
        rw [VarMap.find?_eq_none_iff]
        constructor
        · rintro ⟨s', f', hs', hkind', hx⟩
          obtain rfl := Option.some.inj (hs.symm.trans hs')
          obtain rfl := ScopeKind.function.inj (hkind.symm.trans hkind')
          exact hx
        · intro hx
          exact ⟨s, f, hs, hkind, hx⟩
      rw [hlacks]
      cases hx : f.vars.find? x with
      | none => simp [home?, hs, hkind, hx]
      | some kind => cases kind <;> simp [home?, hs, hkind, hx]

/-- The operation fails at the tree exactly if the condition holds. Carried out in place, it then
leaves the tree and the code as they were. -/
structure Refuses {α : Type} (b : Build α) (m : InPlace α) (t : ScopeTree) (condition : Prop)
    (c : Cause) : Prop where
  done : b.DoneBy m
  fails_iff : (∃ e, b.run t = .error e) ↔ condition
  unchanged : condition → ∀ code, m.run ⟨t, code⟩ = (.error { cause := c }, ⟨t, code⟩)

/-- The operation succeeds at the tree, with the value, and does nothing but put down some actions. -/
def OnlyPuts {α : Type} (m : InPlace α) (t : ScopeTree) (a : α) (actions : List Action) : Prop :=
  ∀ code, m.run ⟨t, code⟩ = (.ok a, ⟨t, code ++ actions.map .action⟩)

section Refusals

variable {t : ScopeTree} {id : Nat} {x : String}

theorem Refuses.intro {α : Type} {b : Build α} {m : InPlace α} {condition : Prop} {c : Cause}
    (hdone : b.DoneBy m) (hok : ¬condition → ∃ r, b.run t = .ok r)
    (herror : condition → b.run t = .error { cause := c })
    (hkept : condition → ∀ code, m.run ⟨t, code⟩ = (.error { cause := c }, ⟨t, code⟩)) :
    Refuses b m t condition c := by
  refine ⟨hdone, ⟨?_, fun h => ⟨_, herror h⟩⟩, hkept⟩
  rintro ⟨e, he⟩
  by_contra hnot
  obtain ⟨r, hr⟩ := hok hnot
  rw [hr] at he
  cases he

/-- A name that the function lists has a place, and so has every name in the module and in a class. -/
theorem ScopeTree.place_of_not_lacks (h : ¬t.Lacks id x) :
    ∃ p : NamePlace, t.home? id x = some p.home := by
  cases hhome : t.home? id x with
  | none => exact absurd (home?_eq_none_iff.mp hhome) h
  | some home =>
    obtain ⟨p, rfl, -⟩ := place_of_home hhome
    exact ⟨p, rfl⟩

theorem storeName_refuses (t : ScopeTree) (id : Nat) (x : String) (v : Value) :
    Refuses (storeName id x v) (InPlace.storeName id x v) t (t.Lacks id x) (.unclassifiedName x) := by
  refine .intro (.storeName id x v) (fun h => ?_) (fun h => ?_) fun h code => ?_
  · obtain ⟨p, hp⟩ := ScopeTree.place_of_not_lacks h
    exact ⟨_, storeName_run hp v⟩
  · have hhome := ScopeTree.home?_eq_none_iff.mpr h
    simp only [storeName, run, Bind.bind, Build.bind, tree, hhome]
    rfl
  · have hhome := ScopeTree.home?_eq_none_iff.mpr h
    simp only [InPlace.storeName, InPlace.run, Bind.bind, InPlace.bind, InPlace.tree, hhome]
    rfl

theorem deleteName_refuses (t : ScopeTree) (id : Nat) (x : String) :
    Refuses (deleteName id x) (InPlace.deleteName id x) t (t.Lacks id x)
      (.deleteNonexistentLocal x) := by
  refine .intro (.deleteName id x) (fun h => ?_) (fun h => ?_) fun h code => ?_
  · obtain ⟨p, hp⟩ := ScopeTree.place_of_not_lacks h
    exact ⟨_, deleteName_run hp⟩
  · have hhome := ScopeTree.home?_eq_none_iff.mpr h
    simp only [deleteName, run, Bind.bind, Build.bind, tree, hhome]
    rfl
  · have hhome := ScopeTree.home?_eq_none_iff.mpr h
    simp only [InPlace.deleteName, InPlace.run, Bind.bind, InPlace.bind, InPlace.tree, hhome]
    rfl

theorem readName_succeeds (t : ScopeTree) (id : Nat) (x : String) :
    ∃ r, (readName id x).run t = .ok r := by
  obtain ⟨p, hp⟩ := place_of_access (t.access id x)
  exact ⟨_, readName_run hp.symm⟩

theorem release_refuses (t : ScopeTree) (id : Nat) (v : Temp) :
    Refuses (release id v) (InPlace.release id v) t (¬t.InUse id v) (.tempNotInUse v.name) := by
  refine .intro (.release id v) (fun h => ?_) release_of_not_inUse fun h code => ?_
  · exact ⟨_, release_of_inUse (not_not.mp h)⟩
  · exact InPlace.release_of_not_inUse h

/-- What is addressed by a slot needs neither the registry nor a pool. -/
theorem onlyPuts_slot (h : t.home? id x = some .slot) (v : Value) :
    OnlyPuts (InPlace.storeName id x v) t () [.setSlot x v] ∧
      OnlyPuts (InPlace.deleteName id x) t () [.perform (.checkLocal x), .clearSlot x] := by
  have hstore : (storeName id x v).run t = .ok ⟨(), _, t⟩ := storeName_run (p := .slot) h v
  have hdelete : (deleteName id x).run t = .ok ⟨(), _, t⟩ := deleteName_run (p := .slot) h
  exact ⟨(DoneBy.storeName id x v).ok hstore, (DoneBy.deleteName id x).ok hdelete⟩

theorem onlyPuts_slot_read (h : t.access id x = .slot) :
    OnlyPuts (InPlace.readName id x) t (.slot x) [.perform (.checkLocal x)] := by
  have hread : (readName id x).run t = .ok ⟨.slot x, _, t⟩ := readName_run (p := .slot) h
  exact (DoneBy.readName id x).ok hread

end Refusals

/-- What fails leaves no trace. In every tree that a history leaves, stores and deletes of a name fail
exactly if the scope is a function that does not list the name, whatever the functions around list,
reads never fail, and a scratch variable is refused exactly if the scope did not hand it out or was
given it back since; an operation that fails in place has changed neither the tree nor the code. What
is addressed by a slot changes the code alone. -/
theorem refused_operations_leave_no_trace {o : Options} {h : History} {t : ScopeTree}
    (hr : Runs o h t) (id : Nat) (x : String) (value : Value) (v : Temp) :
    Refuses (storeName id x value) (InPlace.storeName id x value) t (t.Lacks id x)
      (.unclassifiedName x) ∧
    Refuses (deleteName id x) (InPlace.deleteName id x) t (t.Lacks id x)
      (.deleteNonexistentLocal x) ∧
    ((readName id x).DoneBy (InPlace.readName id x) ∧ ∃ r, (readName id x).run t = .ok r) ∧
    Refuses (release id v) (InPlace.release id v) t (¬h.Holds id v) (.tempNotInUse v.name) ∧
    (∀ w, value.temp? = some w →
      Refuses (releaseValue id value) (InPlace.releaseValue id value) t (¬h.Holds id w)
        (.tempNotInUse w.name)) ∧
    (value.temp? = none →
      (releaseValue id value).DoneBy (InPlace.releaseValue id value) ∧
        OnlyPuts (InPlace.releaseValue id value) t () []) ∧
    (t.home? id x = some .slot →
      OnlyPuts (InPlace.storeName id x value) t () [.setSlot x value] ∧
        OnlyPuts (InPlace.deleteName id x) t () [.perform (.checkLocal x), .clearSlot x]) ∧
    (t.access id x = .slot →
      OnlyPuts (InPlace.readName id x) t (.slot x) [.perform (.checkLocal x)]) := by
  have hrelease (w : Temp) : Refuses (release id w) (InPlace.release id w) t (¬h.Holds id w)
      (.tempNotInUse w.name) := by
    rw [← hr.inUse_iff]
    exact release_refuses t id w
  refine ⟨storeName_refuses t id x value, deleteName_refuses t id x,
    ⟨.readName id x, readName_succeeds t id x⟩, hrelease v, fun w hw => ?_, fun hnone => ?_,
    fun hslot => onlyPuts_slot hslot value, onlyPuts_slot_read⟩
  · rw [releaseValue, InPlace.releaseValue, hw]
    exact hrelease w
  · refine ⟨.releaseValue id value, fun code => ?_⟩
    rw [InPlace.releaseValue, hnone, List.map_nil, List.append_nil]
    rfl

/-- Enters a function with the parameter `x` and one in it without names, and gives back one of the
two scratch variables of the outer one. -/
def TreeOp.twoFunctions : List TreeOp :=
  [.enterFunction 0 "f" ⟨⟨[⟨"x", .param 0⟩]⟩, false⟩, .enterFunction 1 "g" ⟨⟨[]⟩, false⟩,
    .request 1 (.alloc "bool"), .request 1 (.alloc "bool"), .request 1 (.free ⟨"πTemp001", "bool"⟩)]

/-- The inner function cannot store the name of the outer one, and the outer one takes back the second
variable but neither the first nor one of another type. -/
theorem refused_operations_leave_no_trace_twoFunctions :
    ∃ h t, TreeOp.runAll? (.ofOptions {}) TreeOp.twoFunctions = some (h, t) ∧
      (∀ code, (InPlace.storeName 2 "x" .noneObject).run ⟨t, code⟩ =
        (.error { cause := .unclassifiedName "x" }, ⟨t, code⟩)) ∧
      (¬∃ e, (release 1 ⟨"πTemp002", "bool"⟩).run t = .error e) ∧
      ∀ v ∈ [⟨"πTemp001", "bool"⟩, ⟨"πTemp002", Temp.objectType⟩], ∀ code,
        (InPlace.release 1 v).run ⟨t, code⟩ =
          (.error { cause := .tempNotInUse v.name }, ⟨t, code⟩) := by
  obtain ⟨⟨h, t⟩, hrun⟩ : ∃ r, TreeOp.runAll? (.ofOptions {}) TreeOp.twoFunctions = some r :=
    Option.isSome_iff_exists.mp (by decide +kernel)
  have hhome : (TreeOp.runAll? (.ofOptions {}) TreeOp.twoFunctions).map (·.2.home? 2 "x") =
      some none := by decide +kernel
  have hpool : (TreeOp.runAll? (.ofOptions {}) TreeOp.twoFunctions).map (·.2.resources 1 |>.pool) =
      some ⟨[⟨⟨"πTemp001", "bool"⟩, false⟩, ⟨⟨"πTemp002", "bool"⟩, true⟩]⟩ := by decide +kernel
  rw [hrun, Option.map_some, Option.some.injEq] at hhome hpool
  have hr : Runs {} h t := Runs.start.runAll hrun
  have hlacks : t.Lacks 2 "x" := ScopeTree.home?_eq_none_iff.mp hhome
  have hheld (v : Temp) : h.Holds 1 v ↔
      Pool.isInUse ⟨[⟨⟨"πTemp001", "bool"⟩, false⟩, ⟨⟨"πTemp002", "bool"⟩, true⟩]⟩ v = true := by
    rw [← hr.inUse_iff, ScopeTree.InUse, hpool]
  refine ⟨h, t, hrun, ?_, ?_, ?_⟩
  · exact (refused_operations_leave_no_trace hr 2 "x" .noneObject ⟨"", ""⟩).1.unchanged hlacks
  · obtain ⟨-, -, -, hrelease, -⟩ :=
      refused_operations_leave_no_trace hr 1 "x" .noneObject ⟨"πTemp002", "bool"⟩
    rw [hrelease.fails_iff, not_not, hheld]
    decide
  · intro v hv
    obtain ⟨-, -, -, hrelease, -⟩ := refused_operations_leave_no_trace hr 1 "x" .noneObject v
    refine hrelease.unchanged ?_
    rw [hheld]
    rcases List.mem_cons.mp hv with rfl | hv
    · decide
    · obtain rfl := List.mem_singleton.mp hv
      decide

end Goward
