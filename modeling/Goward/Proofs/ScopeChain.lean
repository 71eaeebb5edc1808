import Goward.Proofs.Compilation

/-!
# Chains of scopes

A scope sees of the tree around it what its scope and the enclosing ones are the bodies of, from the
inside out. This chain decides where each name is stored and how it is read; the numbers of the
scopes, their resources and the scopes beside them have no part in it. It holds for trees that arise
while code is generated: there the module is the outermost scope of every chain.
-/

namespace Goward

/-- What a scope and the scopes around it are the bodies of, from the inside out. -/
abbrev ScopeChain := List ScopeKind

/-- Where a body knows a name to live. Only functions know names. -/
def ScopeKind.lookup? : ScopeKind → String → Option VarKind
  | .function f, x => f.vars.find? x
  | .module, _ | .classBody _, _ => none

namespace ScopeChain

/-- Whether the nearest function that knows a name holds it in a slot. -/
def inSlot (c : ScopeChain) (x : String) : Bool := (c.findSome? (·.lookup? x)).any (· != .global)

/-- How a name is read in the innermost scope. -/
def access (c : ScopeChain) (x : String) : ScopeTree.Access :=
  match c with
  | .function _ :: _ => if inSlot c x then .slot else .globals
  | .classBody globals :: outer =>
    if globals.contains x then .globals else .classBody (inSlot outer x)
  | .module :: _ | [] => .globals

/-- Where a store or a delete of a name in the innermost scope lands. -/
def home? (c : ScopeChain) (x : String) : Option ScopeTree.Home :=
  match c with
  | .function f :: _ =>
    match f.vars.find? x with
    | none => none
    | some .global => some .globals
    | some _ => some .slot
  | .classBody globals :: _ => some (if globals.contains x then .globals else .classBody)
  | .module :: _ | [] => some .globals

/-- The classification of the innermost scope, if that is a function. -/
def function? : ScopeChain → Option FunctionVars
  | .function f :: _ => some f
  | .module :: _ | .classBody _ :: _ | [] => none

/-- A name is in a slot if the nearest function with a record of it has it as a local name or a
parameter. -/
theorem inSlot_iff {c : ScopeChain} {x : String} : c.inSlot x = true ↔
    ∃ inner f outer k, c = inner ++ .function f :: outer ∧ (∀ s ∈ inner, s.lookup? x = none) ∧
      f.vars.find? x = some k ∧ k ≠ .global := by
  rw [inSlot, Option.any_eq_true]
  simp only [List.findSome?_eq_some_iff, bne_iff_ne]
  constructor
  · rintro ⟨k, ⟨inner, s, outer, rfl, hs, hinner⟩, hk⟩
    cases s with
    | module | classBody _ => cases hs
    | function f => exact ⟨inner, f, outer, k, rfl, hinner, hs, hk⟩
  · rintro ⟨inner, f, outer, k, rfl, hinner, hf, hk⟩
    exact ⟨k, ⟨inner, .function f, outer, rfl, hf, hinner⟩, hk⟩

theorem inSlot_of_access {c : ScopeChain} {x : String} (h : c.access x = .slot) :
    c.inSlot x = true := by
  unfold access at h
  split at h
  · split at h
    · assumption
    · cases h
  · split at h <;> cases h
  · cases h
  · cases h

/-- A class is passed over when the slot of a name is looked for. -/
theorem inSlot_of_closure {c : ScopeChain} {x : String} (h : c.access x = .classBody true) :
    c.inSlot x = true := by
  unfold access at h
  split at h
  · split at h <;> cases h
  · split at h
    · cases h
    · next globals outer _ =>
      rw [inSlot, List.findSome?_cons]
      exact (ScopeTree.Access.classBody.inj h)
  · cases h
  · cases h

theorem inSlot_of_home {c : ScopeChain} {x : String} (h : c.home? x = some .slot) :
    c.inSlot x = true := by
  unfold home? at h
  split at h
  · next f outer =>
    rw [inSlot, List.findSome?_cons, ScopeKind.lookup?]
    split at h
    · cases h
    · cases h
    · next k hne hfind =>
      rw [hfind]
      simpa using hne
  · next globals outer =>
    split at h <;> cases h
  · cases h
  · cases h

end ScopeChain

/-- Two scopes are of the same kind and know the same names to live in the same places. -/
inductive ScopeKind.SameNames : ScopeKind → ScopeKind → Prop
  | module : SameNames .module .module
  | classBody {globals globals' : List String} : (∀ x, x ∈ globals ↔ x ∈ globals') →
    SameNames (.classBody globals) (.classBody globals')
  | function {f f' : FunctionVars} : (∀ x, f.vars.find? x = f'.vars.find? x) →
    SameNames (.function f) (.function f')

theorem ScopeKind.SameNames.refl (k : ScopeKind) : k.SameNames k := by
  cases k with
  | module => exact .module
  | classBody globals => exact .classBody fun _ => .rfl
  | function f => exact .function fun _ => rfl

theorem ScopeKind.SameNames.lookup?_eq {k k' : ScopeKind} (h : k.SameNames k') (x : String) :
    k.lookup? x = k'.lookup? x := by
  cases h with
  | module | classBody _ => rfl
  | function h => exact h x

namespace ScopeChain

/-- Two chains of scopes that know the same names. -/
def SameNames (c c' : ScopeChain) : Prop := List.Forall₂ ScopeKind.SameNames c c'

namespace SameNames

variable {c c' : ScopeChain}

theorem refl (c : ScopeChain) : c.SameNames c :=
  List.forall₂_same.mpr fun k _ => ScopeKind.SameNames.refl k

theorem cons (k : ScopeKind) (h : c.SameNames c') : SameNames (k :: c) (k :: c') :=
  List.Forall₂.cons (ScopeKind.SameNames.refl k) h

theorem inSlot_eq (h : c.SameNames c') (x : String) : c.inSlot x = c'.inSlot x := by
  unfold inSlot
  congr 1
  induction h with
  | nil => rfl
  | cons hk _ ih => rw [List.findSome?_cons, List.findSome?_cons, hk.lookup?_eq x, ih]

theorem access_eq (h : c.SameNames c') (x : String) : c.access x = c'.access x := by
  have hslot := h.inSlot_eq x
  cases h with
  | nil => rfl
  | cons hk houter =>
    cases hk with
    | module => rfl
    | function h =>
      simp only [access, hslot]
    | classBody h =>
      have hglobals := Bool.eq_iff_iff.mpr (List.contains_iff_mem.trans
        ((h x).trans List.contains_iff_mem.symm))
      simp only [access, hglobals, inSlot_eq houter]

theorem home?_eq (h : c.SameNames c') (x : String) : c.home? x = c'.home? x := by
  cases h with
  | nil => rfl
  | cons hk houter =>
    cases hk with
    | module => rfl
    | function h => simp only [home?, h x]
    | classBody h =>
      have hglobals := Bool.eq_iff_iff.mpr (List.contains_iff_mem.trans
        ((h x).trans List.contains_iff_mem.symm))
      simp only [home?, hglobals]

end SameNames

end ScopeChain

namespace ScopeTree

variable {t u : ScopeTree} {id : Nat} {o : Options}

/-- The chain of a scope. -/
def chain (t : ScopeTree) (id : Nat) : ScopeChain := (t.ancestors id).map (·.kind)

/-- Scopes are numbered from the outside in, and there is none around a module. -/
structure Rooted (t : ScopeTree) : Prop where
  below : ∀ i s p, t.scope? i = some s → s.parent = some p → p < i
  outermost : ∀ i s, t.scope? i = some s → s.kind = .module → s.parent = none

theorem chain_eq (h : t.Rooted) {s : Scope} (hs : t.scope? id = some s) :
    t.chain id = s.kind :: (s.parent.map t.chain).getD [] := by
  rw [chain, ancestors]
  simp only [hs]
  cases hp : s.parent with
  | none => rfl
  | some p =>
    simp only [if_pos (h.below id s p hs hp)]
    rfl

/-- A tree that arises while code is generated with the given options. -/
inductive Arises (o : Options) : ScopeTree → Prop
  | initial : Arises o (initialTree o)
  | push {t : ScopeTree} {parent : Nat} (name : String) {kind : ScopeKind} :
    Arises o t → (t.scope? parent).isSome → kind ≠ .module → Arises o (t.push parent name kind).2
  | alloc {t : ScopeTree} (id : Nat) (type : String) : Arises o t → Arises o (t.alloc id type).2
  | free {t u : ScopeTree} {id : Nat} {v : Temp} : Arises o t → t.free id v = .ok u → Arises o u
  | addImport {t : ScopeTree} (path : String) : Arises o t → Arises o (t.addImport path).2
  | addNative {t : ScopeTree} (path : String) : Arises o t → Arises o (t.addNative path).2
  | intern {t : ScopeTree} (s : String) : Arises o t → Arises o (t.intern s).2

theorem Arises.reached (h : t.Arises o) : t.Reached := by
  induction h with
  | initial => exact initialTree_reached o
  | push name _ hparent _ ih => exact .push _ name _ ih hparent
  | alloc id type _ ih => exact .alloc id type ih
  | free _ hu ih => exact .free ih hu
  | addImport path _ ih => exact .addImport path ih
  | addNative path _ ih => exact .addNative path ih
  | intern s _ ih => exact .intern s ih

/-! ### Growth -/

theorem Rooted.setResources (h : t.Rooted) (i : Nat) (r : Resources) :
    (t.setResources i r).Rooted := by
  have hold : ∀ j s, (t.setResources i r).scope? j = some s →
      ∃ s', t.scope? j = some s' ∧ s'.parent = s.parent ∧ s'.kind = s.kind := by
    intro j s hs
    rw [scope?, ScopeTree.setResources, List.getElem?_modify] at hs
    obtain ⟨s', hs', rfl⟩ := Option.map_eq_some_iff.mp hs
    refine ⟨s', hs', ?_⟩
    split <;> exact ⟨rfl, rfl⟩
  constructor
  · intro j s p hs hp
    obtain ⟨s', hs', hparent, -⟩ := hold j s hs
    exact h.below j s' p hs' (hparent.trans hp)
  · intro j s hs hk
    obtain ⟨s', hs', hparent, hkind⟩ := hold j s hs
    exact hparent.symm.trans (h.outermost j s' hs' (hkind.trans hk))

theorem Rooted.push (h : t.Rooted) {parent : Nat} (hparent : (t.scope? parent).isSome)
    (name : String) {kind : ScopeKind} (hkind : kind ≠ .module) :
    (t.push parent name kind).2.Rooted := by
  have hcases : ∀ j s, (t.push parent name kind).2.scope? j = some s →
      t.scope? j = some s ∨ j = t.size ∧ s.parent = some parent ∧ s.kind = kind := by
    intro j s hs
    by_cases hj : j < t.scopes.length
    · rw [scope?, ScopeTree.push, List.getElem?_append_left hj] at hs
      exact .inl hs
    · rw [scope?, ScopeTree.push, List.getElem?_append_right (Nat.le_of_not_lt hj)] at hs
      obtain ⟨hlast, rfl⟩ := List.getElem?_eq_some_iff.mp hs
      rw [List.length_singleton] at hlast
      refine .inr ⟨by unfold size; omega, ?_⟩
      rw [List.getElem_singleton]
      exact ⟨rfl, rfl⟩
  constructor
  · intro j s p hs hp
    rcases hcases j s hs with hs | ⟨rfl, hs, -⟩
    · exact h.below j s p hs hp
    · obtain rfl := Option.some_inj.mp (hs.symm.trans hp)
      exact scope?_isSome_iff.mp hparent
  · intro j s hs hk
    rcases hcases j s hs with hs | ⟨-, -, hs⟩
    · exact h.outermost j s hs hk
    · exact absurd (hs.symm.trans hk) hkind

theorem Arises.rooted (h : t.Arises o) : t.Rooted := by
  induction h with
  | initial =>
    have hone : ∀ j s, (initialTree o).scope? j = some s → s.parent = none := by
      intro j s hs
      obtain ⟨hlast, rfl⟩ := List.getElem?_eq_some_iff.mp hs
      exact congrArg Scope.parent (List.getElem_singleton hlast)
    refine ⟨fun j s p hs hp => ?_, fun j s hs _ => hone j s hs⟩
    rw [hone j s hs] at hp
    cases hp
  | push name _ hparent hkind ih => exact ih.push hparent name hkind
  | alloc id type _ ih => exact ih.setResources id _
  | free _ hu ih =>
    obtain ⟨q, -, rfl⟩ := free_ok hu
    exact ih.setResources _ _
  | addImport path _ ih => exact ⟨ih.below, ih.outermost⟩
  | addNative path _ ih => exact ⟨ih.below, ih.outermost⟩
  | intern s _ ih => exact ⟨ih.below, ih.outermost⟩

/-- The chain of a scope stays the same as the tree grows. -/
theorem GrowsTo.chain_eq (h : t.GrowsTo u) (ht : t.Rooted) (hu : u.Rooted) :
    ∀ id, (t.scope? id).isSome → u.chain id = t.chain id := by
  intro id
  induction id using Nat.strongRecOn with
  | ind id ih =>
    intro hid
    obtain ⟨s, hs⟩ := Option.isSome_iff_exists.mp hid
    obtain ⟨s', hs', hkind, hparent⟩ := h id s hs
    rw [ScopeTree.chain_eq ht hs, ScopeTree.chain_eq hu hs', hkind, hparent]
    cases hp : s.parent with
    | none => rfl
    | some p =>
      have hlt := ht.below id s p hs hp
      have hpsome : (t.scope? p).isSome := by
        rw [scope?_isSome_iff] at hid ⊢
        omega
      simp only [Option.map_some, Option.getD_some, ih p hlt hpsome]

/-- The chain of a scope that is entered. -/
theorem chain_push (ht : t.Rooted) {parent : Nat} (hparent : (t.scope? parent).isSome)
    (name : String) {kind : ScopeKind} (hkind : kind ≠ .module) :
    (t.push parent name kind).2.chain (t.push parent name kind).1 = kind :: t.chain parent := by
  have hpush := ht.push hparent name hkind
  have hentered : ∃ s, (t.push parent name kind).2.scope? (t.push parent name kind).1 = some s ∧
      s.kind = kind ∧ s.parent = some parent := by
    simp [ScopeTree.push, scope?, size]
  obtain ⟨s, hs, hk, hp⟩ := hentered
  rw [chain_eq hpush hs, hk, hp]
  exact congrArg _ ((GrowsTo.push t parent name kind).chain_eq ht hpush parent hparent)

theorem chain_initialTree (o : Options) : (initialTree o).chain moduleId = [.module] := by
  have hrooted : (initialTree o).Rooted := Arises.initial.rooted
  rw [chain_eq hrooted rfl]
  rfl

theorem lookup?_eq (s : Scope) (x : String) : s.lookup? x = s.kind.lookup? x := by
  obtain ⟨i, p, m, name, kind, r⟩ := s
  cases kind <;> rfl

/-- The walk outward is one along the chain. -/
theorem enclosing?_eq_chain (h : t.Rooted) (x : String) :
    ∀ id, t.enclosing? id x = (t.chain id).findSome? (·.lookup? x) := by
  intro id
  induction id using Nat.strongRecOn with
  | ind id ih =>
    rw [enclosing?_eq]
    cases hs : t.scope? id with
    | none =>
      rw [chain, ancestors]
      simp only [hs, List.map_nil, List.findSome?_nil]
    | some s =>
      rw [ScopeTree.chain_eq h hs, List.findSome?_cons]
      by_cases hmodule : s.kind = .module
      · have hnone := h.outermost id s hs hmodule
        simp [Scope.isModule, hmodule, hnone, ScopeKind.lookup?]
      · have hfalse : s.isModule = false := by
          rw [Scope.isModule]
          exact beq_false_of_ne hmodule
        simp only [hfalse, Bool.false_eq_true, if_false, lookup?_eq]
        cases hlook : s.kind.lookup? x with
        | some k => rfl
        | none =>
          cases hp : s.parent with
          | none => rfl
          | some p =>
            have hlt := h.below id s p hs hp
            simp only [Option.none_or, Option.bind_some, if_pos hlt, ih p hlt, Option.map_some,
              Option.getD_some]

theorem inSlot_eq_chain (h : t.Rooted) (id : Nat) (x : String) :
    t.inSlot id x = (t.chain id).inSlot x := by
  rw [inSlot, ScopeChain.inSlot, enclosing?_eq_chain h]

/-- How a name is read depends on the chain only. -/
theorem access_eq_chain (h : t.Rooted) (id : Nat) (x : String) :
    t.access id x = (t.chain id).access x := by
  cases hs : t.scope? id with
  | none =>
    rw [chain, ancestors, access]
    simp only [hs]
    rfl
  | some s =>
    have hchain := ScopeTree.chain_eq h hs
    have hslot := inSlot_eq_chain h id x
    rw [hchain] at hslot
    rw [access, hchain]
    simp only [hs]
    cases hk : s.kind with
    | module => rfl
    | function f =>
      rw [hk] at hslot
      simp only [ScopeChain.access, hslot]
    | classBody globals =>
      simp only [ScopeChain.access]
      cases s.parent with
      | none => rfl
      | some p => simp only [Option.any_some, inSlot_eq_chain h, Option.map_some, Option.getD_some]

/-- Where a name is stored depends on the chain only. -/
theorem home?_eq_chain (h : t.Rooted) (id : Nat) (x : String) :
    t.home? id x = (t.chain id).home? x := by
  cases hs : t.scope? id with
  | none =>
    rw [chain, ancestors, home?]
    simp only [hs]
    rfl
  | some s =>
    rw [home?, ScopeTree.chain_eq h hs]
    simp only [hs]
    cases s.kind <;> rfl

/-- What is known about the function depends on the chain only. -/
theorem function?_eq_chain (h : t.Rooted) (id : Nat) :
    (t.scope? id).bind (·.function?) = (t.chain id).function? := by
  cases hs : t.scope? id with
  | none =>
    rw [chain, ancestors]
    simp only [hs]
    rfl
  | some s =>
    rw [ScopeTree.chain_eq h hs, Option.bind_some, Scope.function?]
    cases s.kind <;> rfl

end ScopeTree

end Goward
