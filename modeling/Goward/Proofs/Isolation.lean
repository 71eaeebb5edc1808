import Goward.Proofs.NamePlaces

/-!
# Isolation of scopes

All scopes of a tree are worked on in turn, in any order, and each has scratch variables, labels and
loops of its own. A history of steps on a tree, taken apart by the scopes that the steps are
addressed to, is a history for each scope alone. Main result: every scope hands out what it would
hand out on its own, and is left with the same resources. A read takes a scratch variable of the
scope that reads, unless the name is in a slot, and the scopes around it decide about that.
-/

namespace Goward

open Goward.Build Goward.Code

/-- A request to the resources of a scope. -/
inductive ResourceOp
  | alloc (type : String)
  | free (v : Temp)
  | label (isCheckpoint : Bool)
  | openLoop
  | closeLoop
  deriving DecidableEq

/-- What a request is answered with. -/
inductive Granted
  | temp (v : Temp)
  | freed
  | refused (e : Error)
  | label (n : Nat)
  | loop (l : Loop)
  | closed (l : Option Loop)
  deriving DecidableEq

namespace Resources

/-- Answers a request. One that is refused changes nothing. -/
def grant (r : Resources) : ResourceOp → Granted × Resources
  | .alloc type => (.temp (r.alloc type).1, (r.alloc type).2)
  | .free v =>
    match r.free v with
    | .ok r' => (.freed, r')
    | .error e => (.refused e, r)
  | .label isCheckpoint => (.label (r.label isCheckpoint).1, (r.label isCheckpoint).2)
  | .openLoop => (.loop r.openLoop.1, r.openLoop.2)
  | .closeLoop => (.closed r.closeLoop.1, r.closeLoop.2)

/-- Answers requests one after another. -/
def grantAll (r : Resources) : List ResourceOp → List Granted × Resources
  | [] => ([], r)
  | op :: rest =>
    let first := r.grant op
    let later := first.2.grantAll rest
    (first.1 :: later.1, later.2)

theorem grantAll_append (r : Resources) (ops ops' : List ResourceOp) :
    r.grantAll (ops ++ ops') =
      ((r.grantAll ops).1 ++ ((r.grantAll ops).2.grantAll ops').1,
        ((r.grantAll ops).2.grantAll ops').2) := by
  induction ops generalizing r with
  | nil => rfl
  | cons op rest ih =>
    rw [List.cons_append, grantAll, grantAll, ih]
    rfl

end Resources

/-- A step that a unit takes on its tree of scopes. -/
inductive TreeOp
  | enterFunction (parent : Nat) (name : String) (f : FunctionVars)
  | enterClass (parent : Nat) (name : String) (vars : VarMap)
  | store (id : Nat) (x : String) (v : Value)
  | delete (id : Nat) (x : String)
  | read (id : Nat) (x : String)
  | request (id : Nat) (op : ResourceOp)
  /-- Gives back the scratch variable that a value is, if it is one. -/
  | freeValue (id : Nat) (v : Value)
  | addImport (path : String)
  | addNative (path : String)
  | intern (s : String)

/-- What a step on a tree comes back with. -/
inductive Answer
  | granted (g : Granted)
  | nothing
  | scope (id : Nat)
  | code (steps : List Step)
  | value (v : Value) (code : List Step)
  | failed (e : Error)
  | package (p : Package)
  | string (s : StringRef)

/-- Answers a request to the resources of a scope. -/
def ScopeTree.request (t : ScopeTree) (id : Nat) : ResourceOp → Granted × ScopeTree
  | .alloc type => (.temp (t.alloc id type).1, (t.alloc id type).2)
  | .free v =>
    match t.free id v with
    | .ok u => (.freed, u)
    | .error e => (.refused e, t)
  | .label isCheckpoint => (.label (t.label id isCheckpoint).1, (t.label id isCheckpoint).2)
  | .openLoop => (.loop (t.openLoop id).1, (t.openLoop id).2)
  | .closeLoop => (.closed (t.closeLoop id).1, (t.closeLoop id).2)

/-- What a build on a tree comes back with. If it fails the tree is as before. -/
def Answer.ofBuilt {α : Type} (t : ScopeTree) (answer : Built α → Answer) :
    Except Error (Built α) → Answer × ScopeTree
  | .ok r => (answer r, r.tree)
  | .error e => (failed e, t)

namespace TreeOp

/-- Takes a step. -/
def run (t : ScopeTree) : TreeOp → Answer × ScopeTree
  | enterFunction parent name f =>
    (.scope (t.pushFunction parent name f).1, (t.pushFunction parent name f).2)
  | enterClass parent name vars =>
    (.scope (t.pushClass parent name vars).1, (t.pushClass parent name vars).2)
  | store id x v => Answer.ofBuilt t (.code ·.code) ((storeName id x v).run t)
  | delete id x => Answer.ofBuilt t (.code ·.code) ((deleteName id x).run t)
  | read id x => Answer.ofBuilt t (fun r => .value r.value r.code) ((readName id x).run t)
  | request id op => (.granted (t.request id op).1, (t.request id op).2)
  | freeValue id v =>
    match v.temp? with
    | some w => (.granted (t.request id (.free w)).1, (t.request id (.free w)).2)
    | none => (.nothing, t)
  | addImport path => (.package (t.addImport path).1, (t.addImport path).2)
  | addNative path => (.package (t.addNative path).1, (t.addNative path).2)
  | intern s => (.string (t.intern s).1, (t.intern s).2)

/-- The scope that a step is addressed to. -/
def scope? : TreeOp → Option Nat
  | enterFunction parent _ _ | enterClass parent _ _ => some parent
  | store id _ _ | delete id _ | read id _ | request id _ | freeValue id _ => some id
  | addImport _ | addNative _ | intern _ => none

/-- What a step asks of the resources of its scope. A read asks for a scratch variable unless the
name is in a slot; stores and deletes ask for nothing. -/
def charge? (t : ScopeTree) : TreeOp → Option ResourceOp
  | request _ op => some op
  | freeValue _ v => v.temp?.map .free
  | read id x => if t.access id x = .slot then none else some (.alloc Temp.objectType)
  | enterFunction _ _ _ | enterClass _ _ _ | store _ _ _ | delete _ _ | addImport _ | addNative _
  | intern _ => none

/-- What a step asks of the resources of a scope. -/
def chargeTo? (t : ScopeTree) (id : Nat) (op : TreeOp) : Option ResourceOp :=
  if op.scope? = some id then op.charge? t else none

end TreeOp

/-- What an answer hands out. -/
def Answer.granted? : Answer → Option Granted
  | granted g => some g
  | value v _ => v.temp?.map .temp
  | nothing | scope _ | code _ | failed _ | package _ | string _ => none

/-- The steps that were taken, each with its answer. -/
abbrev History := List (TreeOp × Answer)

namespace History

/-- What a history asks of the resources of a scope, where names live as in the given tree. The tree
that a history leaves still has every name where it was when it was read. -/
def requests (h : History) (t : ScopeTree) (id : Nat) : List ResourceOp :=
  h.filterMap fun taken => taken.1.chargeTo? t id

/-- What a history hands out for a scope. -/
def granted (h : History) (id : Nat) : List Granted :=
  h.filterMap fun taken => if taken.1.scope? = some id then taken.2.granted? else none

end History

/-- A history of a unit, and the tree that it leaves. Every step is addressed to a scope that is
there. -/
inductive Runs (o : Options) : History → ScopeTree → Prop
  | start : Runs o [] (.ofOptions o)
  | step {h : History} {t : ScopeTree} (op : TreeOp) : Runs o h t →
    (∀ id, op.scope? = some id → (t.scope? id).isSome) →
    Runs o (h ++ [(op, (op.run t).1)]) (op.run t).2

/-- Takes steps one after another, if each is addressed to a scope that is there. -/
def TreeOp.runAll? (t : ScopeTree) : List TreeOp → Option (History × ScopeTree)
  | [] => some ([], t)
  | op :: rest =>
    if op.scope?.all fun id => (t.scope? id).isSome then
      (runAll? (op.run t).2 rest).map fun later => ((op, (op.run t).1) :: later.1, later.2)
    else none

namespace ScopeTree.Closed

variable {P : ScopeTree → Prop} {t : ScopeTree}

theorem request (hP : Closed P) (id : Nat) (op : ResourceOp) (h : P t) : P (t.request id op).2 := by
  cases op with
  | alloc type => exact hP.alloc id type h
  | free v =>
    rw [ScopeTree.request]
    split
    · next u hu => exact hP.free h hu
    · exact h
  | label isCheckpoint => exact hP.label id isCheckpoint h
  | openLoop => exact hP.openLoop id h
  | closeLoop => exact hP.closeLoop id h

theorem registered (hP : Closed P) (p : NamePlace) (x : String) (h : P t) :
    P (p.registered t x) := by
  cases p with
  | globals | classBody _ => exact hP.intern x h
  | slot => exact h

theorem taken (hP : Closed P) (p : NamePlace) (id : Nat) (x : String) (h : P t) :
    P (p.taken t id x) := by
  cases p with
  | globals | classBody _ => exact hP.alloc id _ (hP.intern x h)
  | slot => exact h

end ScopeTree.Closed

/-- The build registers the name, as one that lives at some place, or fails. -/
def Registers (t : ScopeTree) (x : String) (b : Build Unit) : Prop :=
  (∃ e, b.run t = .error e) ∨
    ∃ (p : NamePlace) (code : List Step), b.run t = .ok ⟨(), code, p.registered t x⟩

theorem storeName_registers (t : ScopeTree) (id : Nat) (x : String) (v : Value) :
    Registers t x (storeName id x v) := by
  cases hhome : t.home? id x with
  | none =>
    refine .inl ⟨{ cause := .unclassifiedName x }, ?_⟩
    simp only [storeName, run, Bind.bind, Build.bind, tree, hhome]
    rfl
  | some home =>
    obtain ⟨p, rfl, -⟩ := ScopeTree.place_of_home hhome
    exact .inr ⟨p, _, storeName_run hhome v⟩

theorem deleteName_registers (t : ScopeTree) (id : Nat) (x : String) :
    Registers t x (deleteName id x) := by
  cases hhome : t.home? id x with
  | none =>
    refine .inl ⟨{ cause := .deleteNonexistentLocal x }, ?_⟩
    simp only [deleteName, run, Bind.bind, Build.bind, tree, hhome]
    rfl
  | some home =>
    obtain ⟨p, rfl, -⟩ := ScopeTree.place_of_home hhome
    exact .inr ⟨p, _, deleteName_run hhome⟩

namespace Registers

variable {t : ScopeTree} {x : String} {b : Build Unit}

theorem closed {P : ScopeTree → Prop} (hP : ScopeTree.Closed P) (hb : Registers t x b) (h : P t) :
    P (Answer.ofBuilt t (.code ·.code) (b.run t)).2 := by
  rcases hb with ⟨e, he⟩ | ⟨p, code, hp⟩
  · rw [he]
    exact h
  · rw [hp]
    exact hP.registered p x h

/-- No resources are needed for it. -/
theorem uncharged (hb : Registers t x b) :
    (Answer.ofBuilt t (.code ·.code) (b.run t)).1.granted? = none ∧
      ∀ j, (Answer.ofBuilt t (.code ·.code) (b.run t)).2.resources j = t.resources j := by
  rcases hb with ⟨e, he⟩ | ⟨p, code, hp⟩
  · rw [he]
    exact ⟨rfl, fun _ => rfl⟩
  · rw [hp]
    cases p with
    | globals | classBody _ | slot => exact ⟨rfl, fun _ => rfl⟩

end Registers

namespace TreeOp

variable {t u : ScopeTree}

theorem run_closed {P : ScopeTree → Prop} (hP : ScopeTree.Closed P) (op : TreeOp)
    (hop : ∀ id, op.scope? = some id → (t.scope? id).isSome) (h : P t) : P (op.run t).2 := by
  cases op with
  | enterFunction parent name f => exact hP.push parent name _ h (hop parent rfl)
  | enterClass parent name vars => exact hP.push parent name _ h (hop parent rfl)
  | store id x v => exact (storeName_registers t id x v).closed hP h
  | delete id x => exact (deleteName_registers t id x).closed hP h
  | read id x =>
    obtain ⟨p, hp⟩ := place_of_access (t.access id x)
    rw [run, readName_run hp.symm]
    exact hP.taken p id x h
  | request id op => exact hP.request id op h
  | freeValue id v =>
    rw [run]
    cases v.temp? with
    | none => exact h
    | some w => exact hP.request id (.free w) h
  | addImport path => exact hP.addImport path h
  | addNative path => exact hP.addNative path h
  | intern s => exact hP.intern s h

theorem run_grows (op : TreeOp) (hop : ∀ id, op.scope? = some id → (t.scope? id).isSome) :
    t.GrowsTo (op.run t).2 :=
  op.run_closed (.of_grows fun hg h => h.trans hg) hop (.refl t)

end TreeOp

namespace ScopeTree

variable {t : ScopeTree} {id : Nat}

/-- A scope answers a request as its resources do on their own, and no other scope notices. -/
theorem request_grants (hid : (t.scope? id).isSome) (op : ResourceOp) :
    (t.request id op).1 = ((t.resources id).grant op).1 ∧
    ∀ j, (t.request id op).2.resources j =
      if j = id then ((t.resources id).grant op).2 else t.resources j := by
  have hset (r : Resources) (j : Nat) :
      (t.setResources id r).resources j = if j = id then r else t.resources j := by
    rw [resources_setResources]
    simp only [hid, and_true]
  cases op with
  | alloc type => exact ⟨rfl, hset _⟩
  | free v =>
    rw [request, Resources.grant, free]
    cases hfree : (t.resources id).free v with
    | ok r => exact ⟨rfl, hset r⟩
    | error e =>
      refine ⟨rfl, fun j => ?_⟩
      show t.resources j = if j = id then t.resources id else t.resources j
      split
      · next hj => rw [hj]
      · rfl
  | label isCheckpoint => exact ⟨rfl, hset _⟩
  | openLoop => exact ⟨rfl, hset _⟩
  | closeLoop => exact ⟨rfl, hset _⟩

end ScopeTree

/-! ### What a step hands out -/

namespace TreeOp

variable {t u : ScopeTree} {op : TreeOp}

/-- A step that asks for nothing gets nothing and leaves all resources alone. -/
theorem run_uncharged (hcharge : op.charge? t = none) :
    (op.run t).1.granted? = none ∧ ∀ j, (op.run t).2.resources j = t.resources j := by
  cases op with
  | enterFunction parent name f => exact ⟨rfl, fun j => ScopeTree.resources_push t parent name _ j⟩
  | enterClass parent name vars => exact ⟨rfl, fun j => ScopeTree.resources_push t parent name _ j⟩
  | store id x v => exact (storeName_registers t id x v).uncharged
  | delete id x => exact (deleteName_registers t id x).uncharged
  | read id x =>
    have hslot : t.access id x = NamePlace.slot.access := by
      rw [charge?] at hcharge
      split at hcharge
      · next h => exact h
      · cases hcharge
    rw [run, readName_run hslot]
    exact ⟨rfl, fun _ => rfl⟩
  | request id op => cases hcharge
  | freeValue id v =>
    have hnone : v.temp? = none := by
      rw [charge?] at hcharge
      exact Option.map_eq_none_iff.mp hcharge
    rw [run, hnone]
    exact ⟨rfl, fun _ => rfl⟩
  | addImport path => exact ⟨rfl, fun _ => rfl⟩
  | addNative path => exact ⟨rfl, fun _ => rfl⟩
  | intern s => exact ⟨rfl, fun _ => rfl⟩

/-- A step that asks for something is answered by its scope as if that were alone. -/
theorem run_charged {r : ResourceOp} (hop : ∀ id, op.scope? = some id → (t.scope? id).isSome)
    (hcharge : op.charge? t = some r) :
    ∃ id, op.scope? = some id ∧ (op.run t).1.granted? = some ((t.resources id).grant r).1 ∧
      ∀ j, (op.run t).2.resources j =
        if j = id then ((t.resources id).grant r).2 else t.resources j := by
  cases op with
  | enterFunction _ _ _ | enterClass _ _ _ | store _ _ _ | delete _ _ | addImport _ | addNative _
  | intern _ => cases hcharge
  | read id x =>
    obtain ⟨p, hp⟩ := place_of_access (t.access id x)
    have hresources := p.resources_taken (hop id rfl) x
    rw [charge?, ← hp] at hcharge
    rw [run, readName_run hp.symm]
    cases p with
    | globals | classBody _ =>
      cases hcharge
      exact ⟨id, rfl, rfl, hresources⟩
    | slot => cases hcharge
  | request id op =>
    cases hcharge
    obtain ⟨hanswer, hresources⟩ := ScopeTree.request_grants (hop id rfl) r
    exact ⟨id, rfl, congrArg some hanswer, hresources⟩
  | freeValue id v =>
    rw [charge?] at hcharge
    obtain ⟨w, hw, rfl⟩ := Option.map_eq_some_iff.mp hcharge
    obtain ⟨hanswer, hresources⟩ := ScopeTree.request_grants (hop id rfl) (.free w)
    rw [run, hw]
    exact ⟨id, rfl, congrArg some hanswer, hresources⟩

/-- A step that is not addressed to a scope leaves its resources alone. -/
theorem run_elsewhere (hop : ∀ id, op.scope? = some id → (t.scope? id).isSome) {j : Nat}
    (hj : op.scope? ≠ some j) : (op.run t).2.resources j = t.resources j := by
  cases hcharge : op.charge? t with
  | none => exact (run_uncharged hcharge).2 j
  | some r =>
    obtain ⟨id, hid, -, hresources⟩ := run_charged hop hcharge
    have hne : j ≠ id := by
      rintro rfl
      exact hj hid
    rw [hresources j, if_neg hne]

/-- A step hands out for a scope what the scope alone does for the request, if there is one. -/
theorem run_grants (hop : ∀ id, op.scope? = some id → (t.scope? id).isSome) (j : Nat) :
    (History.granted [(op, (op.run t).1)] j, (op.run t).2.resources j) =
      (t.resources j).grantAll (op.chargeTo? t j).toList := by
  rw [History.granted, List.filterMap_cons, List.filterMap_nil, chargeTo?]
  by_cases hj : op.scope? = some j
  · rw [if_pos hj, if_pos hj]
    cases hcharge : op.charge? t with
    | none =>
      obtain ⟨hgranted, hresources⟩ := run_uncharged hcharge
      rw [hgranted, hresources j]
      rfl
    | some r =>
      obtain ⟨id, hid, hgranted, hresources⟩ := run_charged hop hcharge
      obtain rfl : id = j := Option.some.inj (hid.symm.trans hj)
      rw [hgranted, hresources id, if_pos rfl]
      rfl
  · rw [if_neg hj, if_neg hj, run_elsewhere hop hj]
    rfl

/-- What a step asks for does not change as the tree grows. -/
theorem chargeTo?_eq {j : Nat} (hg : t.GrowsTo u) (ht : op.scope? = some j → t.Sound j) :
    op.chargeTo? u j = op.chargeTo? t j := by
  rw [chargeTo?, chargeTo?]
  by_cases hj : op.scope? = some j
  · rw [if_pos hj, if_pos hj]
    cases op with
    | read id x =>
      obtain rfl : id = j := Option.some.inj hj
      rw [charge?, charge?, (ht rfl).access_eq hg x]
    | enterFunction _ _ _ | enterClass _ _ _ | store _ _ _ | delete _ _ | request _ _
    | freeValue _ _ | addImport _ | addNative _ | intern _ => rfl
  · rw [if_neg hj, if_neg hj]

end TreeOp

namespace Runs

variable {o : Options} {h : History} {t : ScopeTree}

theorem reached (hr : Runs o h t) : t.Reached := by
  induction hr with
  | start => exact .ofOptions o
  | step op _ hop ih => exact op.run_closed ScopeTree.reached_closed hop ih

/-- The scopes that the steps of a history are addressed to are there. -/
theorem addressed (hr : Runs o h t) :
    ∀ taken ∈ h, ∀ id, taken.1.scope? = some id → (t.scope? id).isSome := by
  induction hr with
  | start => exact fun taken htaken => absurd htaken List.not_mem_nil
  | @step h t op _ hop ih =>
    have hgrows : t.GrowsTo (op.run t).2 := op.run_grows hop
    intro taken htaken id hid
    refine hgrows.isSome ?_
    rcases List.mem_append.mp htaken with hold | hnew
    · exact ih taken hold id hid
    · obtain rfl := List.mem_singleton.mp hnew
      exact hop id hid

/-- Whatever steps are taken, what comes of them is a history. -/
theorem runAll {ops : List TreeOp} {more : History} {u : ScopeTree} (hr : Runs o h t)
    (hops : TreeOp.runAll? t ops = some (more, u)) : Runs o (h ++ more) u := by
  induction ops generalizing h t more with
  | nil =>
    cases hops
    rwa [List.append_nil]
  | cons op rest ih =>
    rw [TreeOp.runAll?] at hops
    split at hops
    · next hop =>
      obtain ⟨later, hlater, heq⟩ := Option.map_eq_some_iff.mp hops
      cases heq
      have hthere : ∀ id, op.scope? = some id → (t.scope? id).isSome := by
        intro id hid
        rw [hid] at hop
        exact hop
      have hstep := ih (hr.step op hthere) hlater
      rwa [List.append_assoc, List.singleton_append] at hstep
    · cases hops

end Runs

theorem ScopeTree.resources_ofOptions (o : Options) (j : Nat) :
    (ScopeTree.ofOptions o).resources j = {} := by
  cases j with
  | zero => rfl
  | succ n => rfl

/-- Scopes have resources of their own. However the steps of a unit are spread over its scopes, each
scope hands out the scratch variables, labels and loops that it would hand out alone, for the steps
that are addressed to it, and is left with the same resources. A read counts as a request for a
scratch variable of the scope that reads unless the name is in a slot; stores and deletes count as
nothing. -/
theorem scopes_isolated {o : Options} {h : History} {t : ScopeTree} (hr : Runs o h t) (j : Nat) :
    (h.granted j, t.resources j) = ({} : Resources).grantAll (h.requests t j) := by
  induction hr with
  | start =>
    rw [ScopeTree.resources_ofOptions]
    rfl
  | @step h t op hr hop ih =>
    have hgrows : t.GrowsTo (op.run t).2 := op.run_grows hop
    have hsound (op' : TreeOp) (hin : ∀ id, op'.scope? = some id → (t.scope? id).isSome) :
        op'.chargeTo? (op.run t).2 j = op'.chargeTo? t j :=
      TreeOp.chargeTo?_eq hgrows fun hj => hr.reached.sound j (hin j hj)
    have hbefore : h.requests (op.run t).2 j = h.requests t j :=
      List.filterMap_congr fun taken htaken => hsound taken.1 (hr.addressed taken htaken)
    have hrequests : History.requests (h ++ [(op, (op.run t).1)]) (op.run t).2 j =
        h.requests t j ++ (op.chargeTo? t j).toList := by
      rw [← hbefore, ← hsound op hop, History.requests, List.filterMap_append, ← History.requests,
        List.filterMap_cons, List.filterMap_nil]
      cases op.chargeTo? (op.run t).2 j <;> rfl
    have hgranted : History.granted (h ++ [(op, (op.run t).1)]) j =
        h.granted j ++ History.granted [(op, (op.run t).1)] j := List.filterMap_append
    have hstep := TreeOp.run_grants hop j
    rw [hgranted, hrequests, Resources.grantAll_append, ← ih, ← hstep]

/-- The function and the class in it work by turns with the module. -/
def TreeOp.byTurns : List TreeOp :=
  [.request 0 (.alloc "bool"), .enterFunction 0 "f" ⟨⟨[⟨"x", .param 0⟩]⟩, false⟩,
    .request 1 .openLoop, .read 1 "y", .enterClass 1 "C" ⟨[]⟩, .read 2 "x", .read 1 "x",
    .request 0 (.label true), .store 2 "x" .noneObject,
    .freeValue 1 (.temp ⟨"πTemp001", Temp.objectType⟩),
    .request 0 (.free ⟨"πTemp001", Temp.objectType⟩), .request 1 (.alloc Temp.objectType)]

/-- The function opens a loop, reads `y` among the names of the module and `x` in a slot, and takes
again the variable that it gave back. -/
theorem scopes_isolated_byTurns :
    ∃ h t, TreeOp.runAll? (.ofOptions {}) TreeOp.byTurns = some (h, t) ∧
      (h.granted 1, t.resources 1) = ({} : Resources).grantAll [.openLoop, .alloc Temp.objectType,
        .free ⟨"πTemp001", Temp.objectType⟩, .alloc Temp.objectType] := by
  obtain ⟨⟨h, t⟩, hrun⟩ : ∃ r, TreeOp.runAll? (.ofOptions {}) TreeOp.byTurns = some r :=
    Option.isSome_iff_exists.mp (by decide +kernel)
  have hrequests :
      (TreeOp.runAll? (.ofOptions {}) TreeOp.byTurns).map (fun r => r.1.requests r.2 1) = some
        [.openLoop, .alloc Temp.objectType, .free ⟨"πTemp001", Temp.objectType⟩,
          .alloc Temp.objectType] := by decide +kernel
  rw [hrun, Option.map_some, Option.some.injEq] at hrequests
  have hr : Runs {} h t := Runs.start.runAll hrun
  refine ⟨h, t, hrun, ?_⟩
  rw [← hrequests]
  exact scopes_isolated hr 1

end Goward
