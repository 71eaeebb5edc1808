import Goward.Proofs.TreeChanges

/-!
# Growth of the scope tree

Scopes are added to a tree and never taken away. What a scope is the body of and where it stands
does not change either, only its resources do.
-/

namespace Goward.ScopeTree

/-- Every scope of the first tree is a scope of the second one, with the same kind and parent. -/
def GrowsTo (t u : ScopeTree) : Prop :=
  ∀ i s, t.scope? i = some s → ∃ s', u.scope? i = some s' ∧ s'.kind = s.kind ∧ s'.parent = s.parent

namespace GrowsTo

theorem refl (t : ScopeTree) : t.GrowsTo t := fun _ s h => ⟨s, h, rfl, rfl⟩

theorem trans {t u v : ScopeTree} (h : t.GrowsTo u) (h' : u.GrowsTo v) : t.GrowsTo v := by
  intro i s hs
  obtain ⟨s₁, h₁, hkind₁, hparent₁⟩ := h i s hs
  obtain ⟨s₂, h₂, hkind₂, hparent₂⟩ := h' i s₁ h₁
  exact ⟨s₂, h₂, hkind₂.trans hkind₁, hparent₂.trans hparent₁⟩

theorem setResources (t : ScopeTree) (id : Nat) (r : Resources) :
    t.GrowsTo (t.setResources id r) := by
  intro i s hs
  have hs' : t.scopes[i]? = some s := hs
  by_cases hi : id = i
  · refine ⟨{ s with resources := r }, ?_, rfl, rfl⟩
    simp [ScopeTree.scope?, ScopeTree.setResources, hi, hs']
  · refine ⟨s, ?_, rfl, rfl⟩
    simp [ScopeTree.scope?, ScopeTree.setResources, hi, hs']

theorem push (t : ScopeTree) (parent : Nat) (name : String) (kind : ScopeKind) :
    t.GrowsTo (t.push parent name kind).2 := by
  intro i s hs
  have hs' : t.scopes[i]? = some s := hs
  have hi : i < t.scopes.length := (List.getElem?_eq_some_iff.mp hs').1
  refine ⟨s, ?_, rfl, rfl⟩
  simp [ScopeTree.scope?, ScopeTree.push, List.getElem?_append_left hi, hs']

end GrowsTo

/-- Lowering only lets a tree grow. -/
theorem growsTo_treeRelation : Build.TreeRelation GrowsTo where
  refl := .refl
  trans := .trans
  alloc t id _ := .setResources t id _
  free {t id v t'} h := by
    unfold ScopeTree.free at h
    cases hr : (t.resources id).free v with
    | error e => simp [hr, Except.map] at h
    | ok r =>
      simp only [hr, Except.map, Except.ok.injEq] at h
      exact h ▸ .setResources t id r
  intern _ _ := .refl _
  addImport _ _ := .refl _
  addNative _ _ := .refl _
  push := .push

/-- The scope that a push enters. -/
theorem scope?_push (t : ScopeTree) (parent : Nat) (name : String) (kind : ScopeKind) :
    ∃ s, (t.push parent name kind).2.scope? (t.push parent name kind).1 = some s ∧
      s.kind = kind := by
  simp [push, scope?, size]

/-- Where a name lives from a scope outward: the scope decides if it is a function that knows the
name, and its parent does if not. -/
theorem enclosing?_eq (t : ScopeTree) (id : Nat) (x : String) :
    t.enclosing? id x =
      match t.scope? id with
      | none => none
      | some s =>
        if s.isModule then none
        else (s.lookup? x).or
          (s.parent.bind fun p => if p < id then t.enclosing? p x else none) := by
  rw [enclosing?, ancestors]
  cases t.scope? id with
  | none => rfl
  | some s =>
    dsimp only
    cases hmodule : s.isModule with
    | true => cases s.parent with
      | none => simp [hmodule]
      | some p => by_cases hp : p < id <;> simp [hmodule, hp]
    | false => cases s.parent with
      | none => cases hx : s.lookup? x <;> simp [hmodule, hx]
      | some p =>
        by_cases hp : p < id <;> cases hx : s.lookup? x <;> simp [hmodule, hx, hp, enclosing?]

theorem scope?_isSome_iff {t : ScopeTree} {id : Nat} : (t.scope? id).isSome ↔ id < t.size := by
  simp [scope?, size]

namespace GrowsTo

variable {t u : ScopeTree}

theorem isSome (h : t.GrowsTo u) {id : Nat} (hid : (t.scope? id).isSome) :
    (u.scope? id).isSome := by
  obtain ⟨s, hs⟩ := Option.isSome_iff_exists.mp hid
  obtain ⟨s', hs', -, -⟩ := h id s hs
  exact Option.isSome_iff_exists.mpr ⟨s', hs'⟩

theorem enclosing?_eq (h : t.GrowsTo u) (x : String) :
    ∀ id, (t.scope? id).isSome → u.enclosing? id x = t.enclosing? id x := by
  intro id
  induction id using Nat.strongRecOn with
  | ind id ih =>
    intro hid
    obtain ⟨s, hs⟩ := Option.isSome_iff_exists.mp hid
    obtain ⟨s', hs', hkind, hparent⟩ := h id s hs
    have hmodule : s'.isModule = s.isModule := by rw [Scope.isModule, Scope.isModule, hkind]
    have hlookup : s'.lookup? x = s.lookup? x := by
      simp only [Scope.lookup?, Scope.function?, hkind]
    have houter : (s.parent.bind fun p => if p < id then u.enclosing? p x else none) =
        s.parent.bind fun p => if p < id then t.enclosing? p x else none := by
      congr 1
      funext p
      split
      · rename_i hp
        refine ih p hp ?_
        rw [scope?_isSome_iff] at hid ⊢
        omega
      · rfl
    rw [ScopeTree.enclosing?_eq u, ScopeTree.enclosing?_eq t, hs, hs']
    simp only [hmodule, hlookup, hparent, houter]

/-- How a name is read in a scope does not change as the tree grows. -/
theorem access_eq (h : t.GrowsTo u) {id : Nat} (hid : (t.scope? id).isSome)
    (hparent : ∀ s p, t.scope? id = some s → s.parent = some p → (t.scope? p).isSome) (x : String) :
    u.access id x = t.access id x := by
  obtain ⟨s, hs⟩ := Option.isSome_iff_exists.mp hid
  obtain ⟨s', hs', hkind', hparent'⟩ := h id s hs
  have hslot : u.inSlot id x = t.inSlot id x := by
    rw [inSlot, inSlot, h.enclosing?_eq x id hid]
  have hclosure : s.parent.any (u.inSlot · x) = s.parent.any (t.inSlot · x) := by
    cases hp : s.parent with
    | none => rfl
    | some p => simp only [Option.any_some, inSlot, h.enclosing?_eq x p (hparent s p hs hp)]
  simp only [access, hs, hs', hkind', hparent', hslot, hclosure]

theorem home?_eq (h : t.GrowsTo u) {id : Nat} (hid : (t.scope? id).isSome) (x : String) :
    u.home? id x = t.home? id x := by
  obtain ⟨s, hs⟩ := Option.isSome_iff_exists.mp hid
  obtain ⟨s', hs', hkind, -⟩ := h id s hs
  simp only [home?, hs, hs', hkind]

end GrowsTo

end Goward.ScopeTree
