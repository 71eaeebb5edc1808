import Goward.Proofs.Registration
import Goward.Proofs.Scratch

/-!
# Where names live

A scope stores, deletes and reads a name at one place: under a key among the names of the module or
of a class, or in a slot. Stores and deletes look only at the scope itself and reads look outward,
but wherever a name can be stored they agree, and they go on to agree as the tree grows, whatever is
registered. A name that is declared global is treated as in the module.
-/

namespace Goward

open Goward.Build Goward.Code

/-- Where a name lives as seen from a scope. -/
inductive NamePlace
  | globals
  /-- In the class; `closure` tells whether an enclosing function has a slot for the name. -/
  | classBody (closure : Bool)
  | slot

namespace NamePlace

/-- Where stores and deletes of a name at the place land. -/
def home : NamePlace → ScopeTree.Home
  | globals => .globals
  | classBody _ => .classBody
  | slot => .slot

/-- How a name at the place is read. -/
def access : NamePlace → ScopeTree.Access
  | globals => .globals
  | classBody closure => .classBody closure
  | slot => .slot

/-- The code that stores a value in a name at the place. -/
def storing (x : String) (v : Value) : NamePlace → List Action
  | globals => [.perform (.setItem .globals (.of x) v)]
  | classBody _ => [.perform (.setItem .classBody (.of x) v)]
  | slot => [.setSlot x v]

/-- The code that deletes a name at the place. A slot must be bound before it is cleared. -/
def deleting (x : String) : NamePlace → List Action
  | globals => [.perform (.delVar .globals (.of x))]
  | classBody _ => [.perform (.delVar .classBody (.of x))]
  | slot => [.perform (.checkLocal x), .clearSlot x]

/-- The code that reads a name at the place, with the scratch variable for the result. A slot needs
none, but it must be bound. -/
def reading (x : String) (w : Temp) : NamePlace → List Action
  | globals => [.acquire w, .store w (.resolveGlobal (.of x))]
  | classBody closure =>
    [.acquire w, .store w (.resolveClass (if closure then some x else none) (.of x))]
  | slot => [.perform (.checkLocal x)]

/-- The value of a name at the place, once it is read. -/
def value (x : String) (w : Temp) : NamePlace → Value
  | globals | classBody _ => .temp w
  | slot => .slot x

/-- The tree after a store or a delete. -/
def registered (t : ScopeTree) (x : String) : NamePlace → ScopeTree
  | globals | classBody _ => (t.intern x).2
  | slot => t

/-- The resources of the scope after a read. -/
def charged (r : Resources) : NamePlace → Resources
  | globals | classBody _ => (r.alloc Temp.objectType).2
  | slot => r

/-- The tree after a read in a scope. -/
def taken (t : ScopeTree) (id : Nat) (x : String) : NamePlace → ScopeTree
  | globals | classBody _ => ((t.intern x).2.alloc id Temp.objectType).2
  | slot => t

/-- The operations on a name in a scope succeed, with the code for this place. -/
structure Addressed (p : NamePlace) (t : ScopeTree) (id : Nat) (x : String) : Prop where
  store : ∀ v, (storeName id x v).run t =
    .ok ⟨(), (p.storing x v).map .action, p.registered t x⟩
  delete : (deleteName id x).run t = .ok ⟨(), (p.deleting x).map .action, p.registered t x⟩
  read : (readName id x).run t =
    .ok ⟨p.value x (t.alloc id Temp.objectType).1,
      (p.reading x (t.alloc id Temp.objectType).1).map .action, p.taken t id x⟩

end NamePlace

section Code

variable {t u : ScopeTree} {id : Nat} {x : String} {p : NamePlace}

theorem storeName_run (h : t.home? id x = some p.home) (v : Value) :
    (storeName id x v).run t = .ok ⟨(), (p.storing x v).map .action, p.registered t x⟩ := by
  have hkey : (t.intern x).1 = .of x := Registry.intern_eq t.registry x
  cases p with
  | globals | classBody _ | slot =>
    simp only [storeName, run, Bind.bind, Build.bind, tree, h, NamePlace.home, NamePlace.storing,
      ← hkey]
    rfl

theorem deleteName_run (h : t.home? id x = some p.home) :
    (deleteName id x).run t = .ok ⟨(), (p.deleting x).map .action, p.registered t x⟩ := by
  have hkey : (t.intern x).1 = .of x := Registry.intern_eq t.registry x
  cases p with
  | globals | classBody _ | slot =>
    simp only [deleteName, run, Bind.bind, Build.bind, tree, h, NamePlace.home, NamePlace.deleting,
      ← hkey]
    rfl

theorem readName_run (h : t.access id x = p.access) :
    (readName id x).run t =
      .ok ⟨p.value x (t.alloc id Temp.objectType).1,
        (p.reading x (t.alloc id Temp.objectType).1).map .action, p.taken t id x⟩ := by
  have hkey : (t.intern x).1 = .of x := Registry.intern_eq t.registry x
  cases p with
  | globals | classBody _ | slot =>
    simp only [readName, run, Bind.bind, Build.bind, tree, h, NamePlace.access, NamePlace.reading,
      ← hkey]
    rfl

/-- Every name is read at some place. -/
theorem place_of_access (a : ScopeTree.Access) : ∃ p : NamePlace, p.access = a := by
  cases a with
  | globals => exact ⟨.globals, rfl⟩
  | classBody closure => exact ⟨.classBody closure, rfl⟩
  | slot => exact ⟨.slot, rfl⟩

end Code

namespace ScopeTree

/-- A property of trees that every single change keeps. -/
structure Closed (P : ScopeTree → Prop) : Prop where
  push : ∀ {t} parent name kind, P t → (t.scope? parent).isSome → P (t.push parent name kind).2
  alloc : ∀ {t} id type, P t → P (t.alloc id type).2
  free : ∀ {t u id v}, P t → t.free id v = .ok u → P u
  label : ∀ {t} id isCheckpoint, P t → P (t.label id isCheckpoint).2
  openLoop : ∀ {t} id, P t → P (t.openLoop id).2
  closeLoop : ∀ {t} id, P t → P (t.closeLoop id).2
  addImport : ∀ {t} path, P t → P (t.addImport path).2
  addNative : ∀ {t} path, P t → P (t.addNative path).2
  intern : ∀ {t} s, P t → P (t.intern s).2

variable {P : ScopeTree → Prop} {t : ScopeTree}

/-- With every change a tree grows. -/
theorem Closed.of_grows (h : ∀ {t u : ScopeTree}, t.GrowsTo u → P t → P u) : Closed P where
  push parent name kind ht _ := h (.push _ parent name kind) ht
  alloc id type ht := h (growsTo_alloc _ id type) ht
  free ht hu := h (growsTo_treeRelation.free hu) ht
  label id _ ht := h (.setResources _ id _) ht
  openLoop id ht := h (.setResources _ id _) ht
  closeLoop id ht := h (.setResources _ id _) ht
  addImport path ht := h (growsTo_treeRelation.addImport _ path) ht
  addNative path ht := h (growsTo_treeRelation.addNative _ path) ht
  intern s ht := h (growsTo_treeRelation.intern _ s) ht

theorem reached_closed : Closed Reached where
  push parent name kind h hparent := .push parent name kind h hparent
  alloc id type h := .alloc id type h
  free h hu := .free h hu
  label id isCheckpoint h := .label id isCheckpoint h
  openLoop id h := .openLoop id h
  closeLoop id h := .closeLoop id h
  addImport path h := .addImport path h
  addNative path h := .addNative path h
  intern s h := .intern s h

/-- What holds of the tree with the module only, and is kept by every change, holds of every tree
that can be reached. -/
theorem Reached.closed (hP : Closed P) (hstart : ∀ o, P (ScopeTree.ofOptions o))
    (h : t.Reached) : P t := by
  induction h with
  | ofOptions o => exact hstart o
  | push parent name kind _ hparent ih => exact hP.push parent name kind ih hparent
  | alloc id type _ ih => exact hP.alloc id type ih
  | free _ hu ih => exact hP.free ih hu
  | label id isCheckpoint _ ih => exact hP.label id isCheckpoint ih
  | openLoop id _ ih => exact hP.openLoop id ih
  | closeLoop id _ ih => exact hP.closeLoop id ih
  | addImport path _ ih => exact hP.addImport path ih
  | addNative path _ ih => exact hP.addNative path ih
  | intern s _ ih => exact hP.intern s ih

end ScopeTree

/-! ### Stores and reads agree -/

namespace ScopeTree

variable {t u : ScopeTree} {id : Nat} {x : String}

/-- What a function knows about a name decides whether the name is in a slot. -/
theorem inSlot_of_find {s : Scope} {f : FunctionVars} {kind : VarKind} (hs : t.scope? id = some s)
    (hkind : s.kind = .function f) (hx : f.vars.find? x = some kind) :
    t.inSlot id x = (kind != .global) := by
  have hlookup : s.lookup? x = some kind := by
    rw [Scope.lookup?, Scope.function?, hkind, Option.bind_some, hx]
  have hmodule : s.isModule = false := by rw [Scope.isModule, hkind]; rfl
  rw [inSlot, enclosing?_eq, hs]
  simp only [hmodule, hlookup, Bool.false_eq_true, if_false, Option.some_or, Option.any_some]

/-- A name that can be stored is read where it is stored. -/
theorem place_of_home {home : Home} (h : t.home? id x = some home) :
    ∃ p : NamePlace, p.home = home ∧ t.access id x = p.access := by
  rw [home?] at h
  rw [access]
  cases hs : t.scope? id with
  | none =>
    rw [hs] at h
    cases h
    exact ⟨.globals, rfl, rfl⟩
  | some s =>
    rw [hs] at h
    dsimp only at h ⊢
    cases hkind : s.kind with
    | module =>
      rw [hkind] at h
      cases h
      exact ⟨.globals, rfl, rfl⟩
    | classBody globals =>
      rw [hkind] at h
      dsimp only at h ⊢
      split at h
      · next hx =>
        cases h
        exact ⟨.globals, rfl, if_pos hx⟩
      · next hx =>
        cases h
        exact ⟨.classBody _, rfl, if_neg hx⟩
    | function f =>
      rw [hkind] at h
      dsimp only at h ⊢
      cases hx : f.vars.find? x with
      | none =>
        rw [hx] at h
        cases h
      | some kind =>
        rw [hx] at h
        rw [inSlot_of_find hs hkind hx]
        cases kind with
        | global =>
          cases h
          exact ⟨.globals, rfl, rfl⟩
        | «local» =>
          cases h
          exact ⟨.slot, rfl, rfl⟩
        | param index =>
          cases h
          exact ⟨.slot, rfl, rfl⟩

/-- Where a name is stored and read, it stays, however the tree grows. -/
theorem Sound.addressed {p : NamePlace} (ht : t.Sound id) (hhome : t.home? id x = some p.home)
    (haccess : t.access id x = p.access) (hg : t.GrowsTo u) : p.Addressed u id x := by
  have hhome' : u.home? id x = some p.home := (hg.home?_eq ht.isSome x).trans hhome
  have haccess' : u.access id x = p.access := (ht.access_eq hg x).trans haccess
  exact ⟨storeName_run hhome', deleteName_run hhome', readName_run haccess'⟩

/-- The scope is a function or a class in which the name is declared global. -/
def DeclaresGlobal (t : ScopeTree) (id : Nat) (x : String) : Prop :=
  ∃ s, t.scope? id = some s ∧
    match s.kind with
    | .module => False
    | .classBody globals => x ∈ globals
    | .function f => f.vars.find? x = some .global

theorem DeclaresGlobal.home (h : t.DeclaresGlobal id x) : t.home? id x = some .globals := by
  obtain ⟨s, hs, hglobal⟩ := h
  cases hkind : s.kind with
  | module => simp [hkind] at hglobal
  | classBody globals =>
    simp only [hkind] at hglobal
    simp [home?, hs, hkind, hglobal]
  | function f =>
    simp only [hkind] at hglobal
    simp [home?, hs, hkind, hglobal]

/-- The tree with the module only grows to every tree that can be reached. -/
theorem Reached.grows (h : t.Reached) : ∃ o, (ScopeTree.ofOptions o).GrowsTo t := by
  refine h.closed (P := fun t => ∃ o, (ScopeTree.ofOptions o).GrowsTo t) (.of_grows ?_)
    fun o => ⟨o, .refl _⟩
  rintro t u hg ⟨o, ho⟩
  exact ⟨o, ho.trans hg⟩

/-- In a tree that can be reached the module is the outermost scope. -/
theorem Reached.module (h : t.Reached) :
    ∃ s, t.scope? moduleId = some s ∧ s.kind = .module := by
  obtain ⟨o, hg⟩ := h.grows
  obtain ⟨s, hs, hkind, -⟩ := hg moduleId _ rfl
  exact ⟨s, hs, hkind⟩

theorem Reached.addressed_module (h : t.Reached) (x : String) :
    NamePlace.globals.Addressed t moduleId x := by
  obtain ⟨s, hs, hkind⟩ := h.module
  have hhome : t.home? moduleId x = some .globals := by simp [home?, hs, hkind]
  have haccess : t.access moduleId x = .globals := by simp [access, hs, hkind]
  exact ⟨storeName_run hhome, deleteName_run hhome, readName_run haccess⟩

end ScopeTree

/-- A read takes its result from the pool of the scope that reads, and from no other one. -/
theorem NamePlace.resources_taken (p : NamePlace) {t : ScopeTree} {id : Nat}
    (hid : (t.scope? id).isSome) (x : String) (i : Nat) :
    (p.taken t id x).resources i =
      if i = id then p.charged (t.resources id) else t.resources i := by
  cases p with
  | globals | classBody _ =>
    rw [taken, ScopeTree.alloc, ScopeTree.onResources, ScopeTree.resources_setResources]
    by_cases hi : i = id
    · rw [if_pos ⟨hi, hid⟩, if_pos hi]
      rfl
    · rw [if_neg fun h => hi h.1, if_neg hi]
      rfl
  | slot =>
    rw [taken, charged]
    split
    · next hi => rw [hi]
    · rfl

/-- The three operations on a name agree on where it lives. In every tree that can be reached, a
name that can be stored in a scope has a place there, and stores, deletes and reads of it succeed
with the code for this place, now and in every tree that the tree grows to, whatever that has
registered. A name that is declared global in a function or a class, at any depth, has the code of
the module, whatever the functions around hold; only the result of a read comes from the pool of the
scope. -/
theorem names_live_at_places {t : ScopeTree} (ht : t.Reached) {id : Nat}
    (hid : (t.scope? id).isSome) (x : String) :
    (∀ v r, (storeName id x v).run t = .ok r →
      ∃ p : NamePlace, ∀ u, t.GrowsTo u → p.Addressed u id x) ∧
    (t.DeclaresGlobal id x →
      NamePlace.globals.Addressed t id x ∧ NamePlace.globals.Addressed t ScopeTree.moduleId x ∧
      ∃ r w, (readName id x).run t = .ok r ∧ r.value = .temp w ∧
        (w, r.tree.resources id) = (t.resources id).alloc Temp.objectType ∧
        ∀ i, i ≠ id → r.tree.resources i = t.resources i) := by
  have hsound : t.Sound id := ht.sound id hid
  constructor
  · intro v r hr
    cases hhome : t.home? id x with
    | none =>
      simp only [storeName, run, Bind.bind, Build.bind, tree, hhome] at hr
      cases hr
    | some home =>
      obtain ⟨p, rfl, haccess⟩ := ScopeTree.place_of_home hhome
      exact ⟨p, fun u hg => hsound.addressed hhome haccess hg⟩
  · intro hglobal
    have hhome := hglobal.home
    obtain ⟨p, hp, haccess⟩ := ScopeTree.place_of_home hhome
    obtain rfl : p = .globals := by
      cases p with
      | globals => rfl
      | classBody _ | slot => cases hp
    have hplace : NamePlace.globals.Addressed t id x := hsound.addressed hhome haccess (.refl t)
    refine ⟨hplace, ht.addressed_module x, _, _, hplace.read, rfl, ?_, fun i hi => ?_⟩
    · rw [NamePlace.resources_taken _ hid, if_pos rfl]
      rfl
    · rw [NamePlace.resources_taken _ hid, if_neg hi]

/-- A function with the parameter `x`, and a class in it that declares `x` global. -/
def ScopeTree.globalInClass : ScopeTree :=
  let inner := (ofOptions {}).pushFunction moduleId "f" ⟨⟨[⟨"x", .param 0⟩]⟩, false⟩
  (inner.2.pushClass inner.1 "C" ⟨[⟨"x", .global⟩]⟩).2

/-- The function has a place for the name, and in the class the name is that of the module. -/
theorem names_live_at_places_class :
    (∃ p : NamePlace, ∀ u, ScopeTree.globalInClass.GrowsTo u → p.Addressed u 1 "x") ∧
    NamePlace.globals.Addressed .globalInClass 2 "x" ∧
    NamePlace.globals.Addressed .globalInClass 0 "x" := by
  have hreached : ScopeTree.globalInClass.Reached :=
    .push 1 "C" _ (.push 0 "f" _ (.ofOptions {}) rfl) rfl
  obtain ⟨hfunction, -⟩ := @names_live_at_places _ hreached 1 rfl "x"
  obtain ⟨-, hclass⟩ := @names_live_at_places _ hreached 2 rfl "x"
  obtain ⟨hinner, hmodule, -⟩ := hclass ⟨_, rfl, by decide⟩
  exact ⟨hfunction .noneObject _ rfl, hinner, hmodule⟩

end Goward
