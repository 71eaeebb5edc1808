import Mathlib.Data.Multiset.AddSub
import Mathlib.Data.Multiset.Dedup
import Goward.Proofs.Scratch

/-!
# Balance of scratch variables

What is in use in a scope, as a multiset, and builds told apart by how they change it: a build is
given some variables, and leaves behind others instead. What else is in use stays in use. Builds in
a row pass on what they leave behind, and a build does not notice what is in use around it, so
balances are put together like triples of a logic with a frame rule. A build that balances never
fails because it gives back what is not in use.
-/

namespace Goward

namespace Pool

/-- The scratch variables in use. -/
def held (p : Pool) : Multiset Temp := ((p.entries.filter (·.inUse)).map (·.temp) : List Temp)

variable {p q : Pool} {v w : Temp}

theorem mem_held : w ∈ p.held ↔ p.isInUse w = true := by
  rw [isInUse_iff, held, Multiset.mem_coe, List.mem_map]
  constructor
  · rintro ⟨⟨temp, inUse⟩, he, rfl⟩
    obtain ⟨hmem, huse⟩ := List.mem_filter.mp he
    obtain rfl : inUse = true := huse
    exact hmem
  · intro h
    exact ⟨⟨w, true⟩, List.mem_filter.mpr ⟨h, rfl⟩, rfl⟩

theorem Valid.held_nodup (h : p.Valid) : p.held.Nodup := by
  have htemps : p.temps.Nodup := h.nodup.of_map _
  have hsub : ((p.entries.filter (·.inUse)).map (·.temp)).Sublist p.temps :=
    List.filter_sublist.map _
  exact Multiset.coe_nodup.mpr (htemps.sublist hsub)

theorem Valid.alloc_not_held (h : p.Valid) (type : String) : (p.alloc type).1 ∉ p.held := by
  intro hmem
  exact h.alloc_fresh (mem_held.mp hmem) rfl

theorem Valid.held_alloc (h : p.Valid) (type : String) :
    (p.alloc type).2.held = (p.alloc type).1 ::ₘ p.held := by
  have hnodup : ((p.alloc type).1 ::ₘ p.held).Nodup :=
    Multiset.nodup_cons.mpr ⟨h.alloc_not_held type, h.held_nodup⟩
  refine (Multiset.Nodup.ext (h.alloc type).held_nodup hnodup).mpr fun w => ?_
  rw [mem_held, alloc_isInUse, Multiset.mem_cons, mem_held, or_comm]

theorem Valid.held_free (h : p.Valid) (hq : p.free v = .ok q) : p.held = v ::ₘ q.held := by
  have hmem : ∀ w, w ∈ q.held ↔ w ∈ p.held ∧ w ≠ v := by
    intro w
    rw [mem_held, mem_held, free_isInUse hq]
  have hv : v ∈ p.held := by
    rw [mem_held]
    by_contra hnot
    rw [Pool.free, if_neg hnot] at hq
    cases hq
  have hnodup : (v ::ₘ q.held).Nodup :=
    Multiset.nodup_cons.mpr ⟨fun hin => ((hmem v).mp hin).2 rfl, (h.free hq).held_nodup⟩
  refine (Multiset.Nodup.ext h.held_nodup hnodup).mpr fun w => ?_
  rw [Multiset.mem_cons, hmem w]
  by_cases hw : w = v
  · subst hw
    simp [hv]
  · simp [hw]

end Pool

namespace ScopeTree

variable {t u w : ScopeTree} {id : Nat} {v : Temp}

/-- The scratch variables in use in a scope. -/
def held (t : ScopeTree) (id : Nat) : Multiset Temp := (t.resources id).pool.held

theorem mem_held : v ∈ t.held id ↔ t.InUse id v := Pool.mem_held

/-- Work in one scope: the other scopes keep their resources, its own labels stay as they are, and
the scopes that are entered in between are left with nothing in use. -/
structure Aside (t : ScopeTree) (id : Nat) (u : ScopeTree) : Prop where
  grows : t.GrowsTo u
  kept : ∀ i, i ≠ id → (t.scope? i).isSome → u.resources i = t.resources i
  labels : (u.resources id).labels = (t.resources id).labels
  settled : ∀ i, ¬(t.scope? i).isSome → u.held i = 0 ∧ (u.resources i).labels = {}

theorem held_entered (t : ScopeTree) (parent : Nat) (name : String) (kind : ScopeKind) :
    (t.push parent name kind).2.held (t.push parent name kind).1 = 0 := by
  rw [held, resources_entered]
  rfl

namespace Aside

theorem refl (t : ScopeTree) (id : Nat) : Aside t id t where
  grows := .refl t
  kept _ _ _ := rfl
  labels := rfl
  settled i hi := by
    rw [held, resources_of_not_isSome hi]
    exact ⟨rfl, rfl⟩

theorem trans (h : Aside t id u) (h' : Aside u id w) (hid : (t.scope? id).isSome) :
    Aside t id w where
  grows := h.grows.trans h'.grows
  kept i hi hsome := (h'.kept i hi (h.grows.isSome hsome)).trans (h.kept i hi hsome)
  labels := h'.labels.trans h.labels
  settled i hi := by
    by_cases hu : (u.scope? i).isSome
    · -- The scope was entered by the first piece of work, and the second one keeps it.
      have hne : i ≠ id := by
        rintro rfl
        exact hi hid
      rw [held, h'.kept i hne hu]
      exact h.settled i hi
    · exact h'.settled i hu

/-- Other resources of the same scope, with the same labels. -/
theorem setResources (t : ScopeTree) (id : Nat) {r : Resources}
    (hr : r.labels = (t.resources id).labels) : Aside t id (t.setResources id r) where
  grows := .setResources t id r
  kept i hi _ := by
    rw [resources_setResources, if_neg (fun h => hi h.1)]
  labels := by
    rw [resources_setResources]
    split
    · exact hr
    · rfl
  settled i hi := by
    have hset : (t.setResources id r).resources i = t.resources i := by
      rw [resources_setResources, if_neg]
      rintro ⟨rfl, hsome⟩
      exact hi hsome
    rw [held, hset, resources_of_not_isSome hi]
    exact ⟨rfl, rfl⟩

/-- A change of what the scopes share. -/
theorem ofScopes (h : u.scopes = t.scopes) (id : Nat) : Aside t id u := by
  obtain ⟨scopes, registry⟩ := u
  obtain rfl : scopes = t.scopes := h
  refine ⟨.refl t, fun _ _ _ => rfl, rfl, fun i hi => ?_⟩
  have hnone := resources_of_not_isSome hi
  exact ⟨congrArg (·.pool.held) hnone, congrArg (·.labels) hnone⟩

/-- Work in a scope that is entered and left with nothing in use, from the scope around it. -/
theorem ofInner {parent : Nat} {name : String} {kind : ScopeKind}
    (h : Aside (t.push parent name kind).2 (t.push parent name kind).1 u)
    (hheld : u.held (t.push parent name kind).1 = 0) (hparent : (t.scope? parent).isSome) :
    Aside t parent u ∧ u.resources parent = t.resources parent := by
  have hold : ∀ i, (t.scope? i).isSome → u.resources i = t.resources i := by
    intro i hi
    have hne : i ≠ (t.push parent name kind).1 := by
      rintro rfl
      exact Nat.lt_irrefl _ (scope?_isSome_iff.mp hi)
    rw [h.kept i hne ((GrowsTo.push t parent name kind).isSome hi), resources_push]
  refine ⟨?_, hold parent hparent⟩
  refine ⟨(GrowsTo.push t parent name kind).trans h.grows, fun i _ hi => hold i hi,
    congrArg (·.labels) (hold parent hparent), fun i hi => ?_⟩
  by_cases hinner : i = (t.push parent name kind).1
  · subst hinner
    refine ⟨hheld, ?_⟩
    rw [h.labels, resources_push, resources_of_not_isSome hi]
  · apply h.settled i
    rw [scope?_push_isSome]
    rintro (hsome | hlast)
    · exact hi hsome
    · exact hinner hlast

end Aside

namespace Sound

theorem held_alloc (h : t.Sound id) (type : String) :
    (t.alloc id type).2.held id = (t.alloc id type).1 ::ₘ t.held id := by
  rw [held, h.alloc_pool]
  exact h.pool.held_alloc type

theorem held_free (h : t.Sound id) (hu : t.free id v = .ok u) : t.held id = v ::ₘ u.held id :=
  h.pool.held_free (h.free_pool hu)

end Sound

end ScopeTree

/-! ### Builds -/

namespace Build

open Goward.Code

variable {α β : Type} {id : Nat} {given given' m : Multiset Temp} {taken mid : α → Multiset Temp}

/-- A build that is given some scratch variables of a scope and leaves others in use instead. What
is in use around them it leaves alone, and so it does the other scopes. -/
structure Balances (id : Nat) (given : Multiset Temp) (b : Build α) (taken : α → Multiset Temp) :
    Prop where
  of_ok : ∀ t frame r, t.Sound id → t.held id = given + frame → b.run t = .ok r →
    r.tree.Sound id ∧ r.tree.held id = taken r.value + frame ∧ t.Aside id r.tree
  of_error : ∀ t frame e v, t.Sound id → t.held id = given + frame → b.run t = .error e →
    e.cause ≠ .tempNotInUse v

namespace Balances

/-- The same balance in other words. -/
theorem of_eq {taken' : α → Multiset Temp} {b : Build α} (h : Balances id given b taken)
    (hgiven : given' = given) (htaken : ∀ a, taken a = taken' a) : Balances id given' b taken' := by
  obtain rfl := hgiven
  obtain rfl : taken = taken' := funext htaken
  exact h

/-- A build does not notice what is in use besides. -/
theorem frame {b : Build α} (h : Balances id given b taken) (m : Multiset Temp) :
    Balances id (given + m) b fun a => taken a + m where
  of_ok t frame r ht hheld hr := by
    rw [Multiset.add_assoc] at hheld
    rw [Multiset.add_assoc]
    exact h.of_ok t (m + frame) r ht hheld hr
  of_error t frame e v ht hheld he := by
    rw [Multiset.add_assoc] at hheld
    exact h.of_error t (m + frame) e v ht hheld he

theorem pure {a : α} (h : taken a = m) : Balances id m (pure a) taken where
  of_ok t frame r ht hheld hr := by
    cases hr
    exact ⟨ht, h ▸ hheld, .refl t id⟩
  of_error t frame e v _ _ he := nomatch he

/-- One build after another, which is told what the first one gives. -/
theorem bindGives {b : Build α} {f : α → Build β} {P : α → Prop} {taken : β → Multiset Temp}
    (hb : Balances id given b mid) (hP : Gives P b)
    (hf : ∀ a, P a → Balances id (mid a) (f a) taken) : Balances id given (b >>= f) taken where
  of_ok t frame r ht hheld hr := by
    obtain ⟨first, h₁, second, h₂, rfl⟩ := run_bind_ok.mp hr
    obtain ⟨ht₁, hheld₁, haside₁⟩ := hb.of_ok t frame first ht hheld h₁
    obtain ⟨ht₂, hheld₂, haside₂⟩ :=
      (hf first.value (hP t first h₁)).of_ok first.tree frame second ht₁ hheld₁ h₂
    exact ⟨ht₂, hheld₂, haside₁.trans haside₂ ht.isSome⟩
  of_error t frame e v ht hheld he := by
    rcases run_bind_error.mp he with he | ⟨first, h₁, h₂⟩
    · exact hb.of_error t frame e v ht hheld he
    · obtain ⟨ht₁, hheld₁, -⟩ := hb.of_ok t frame first ht hheld h₁
      exact (hf first.value (hP t first h₁)).of_error first.tree frame e v ht₁ hheld₁ h₂

theorem bind {b : Build α} {f : α → Build β} {taken : β → Multiset Temp}
    (hb : Balances id given b mid) (hf : ∀ a, Balances id (mid a) (f a) taken) :
    Balances id given (b >>= f) taken :=
  hb.bindGives (P := fun _ => True) (fun _ _ _ => trivial) fun a _ => hf a

theorem fail {c : Cause} (hc : ∀ x, c ≠ .tempNotInUse x) :
    Balances id given (Build.fail c : Build α) taken where
  of_ok _ _ _ _ _ hr := nomatch hr
  of_error t frame e v _ _ he := by
    cases he
    exact hc v

/-- A build that needs no tree, and fails for another reason if at all. -/
theorem lift {x : Except Error α} (hx : ∀ e, x = .error e → ∀ v, e.cause ≠ .tempNotInUse v) :
    Balances id m (Build.lift x) fun _ => m where
  of_ok t frame r ht hheld hr := by
    obtain ⟨a, -, rfl⟩ := run_lift_ok.mp hr
    exact ⟨ht, hheld, .refl t id⟩
  of_error t frame e v _ _ he := hx e (run_lift_error.mp he) v

/-- A build that changes nothing about the scopes. -/
theorem onTree {f : ScopeTree → α × ScopeTree} (hf : ∀ t, (f t).2.scopes = t.scopes) :
    Balances id m (Build.onTree f) fun _ => m where
  of_ok t frame r ht hheld hr := by
    cases hr
    have haside := ScopeTree.Aside.ofScopes (hf t) id
    have hresources : (f t).2.resources id = t.resources id := by
      rw [ScopeTree.resources, ScopeTree.resources, ScopeTree.scope?, ScopeTree.scope?, hf t]
    refine ⟨haside.grows.sound ht (hresources ▸ ht.pool), ?_, haside⟩
    rw [ScopeTree.held, hresources]
    exact hheld
  of_error t frame e v _ _ he := nomatch he

theorem emit (s : Step) : Balances id m (Build.emit s) fun _ => m where
  of_ok t frame r ht hheld hr := by
    cases hr
    exact ⟨ht, hheld, .refl t id⟩
  of_error t frame e v _ _ he := nomatch he

theorem alloc (id : Nat) (type : String) :
    Balances id 0 (Build.onTree (·.alloc id type)) fun v => {v} where
  of_ok t frame r ht hheld hr := by
    cases hr
    refine ⟨ht.alloc, ?_, .setResources t id rfl⟩
    rw [ht.held_alloc, hheld, Multiset.zero_add]
    rfl
  of_error t frame e v _ _ he := nomatch he

theorem free (id : Nat) (v : Temp) :
    Balances id {v} (Build.updateTree (·.free id v)) fun _ => 0 where
  of_ok t frame r ht hheld hr := by
    obtain ⟨u, hu, rfl⟩ := run_free_ok.mp hr
    have hcons := (ht.held_free hu).symm.trans hheld
    obtain ⟨q, -, rfl⟩ := ScopeTree.free_ok hu
    refine ⟨ht.free hu, ?_, .setResources t id rfl⟩
    rw [Multiset.zero_add]
    exact (Multiset.cons_inj_right v).mp hcons
  of_error t frame e w ht hheld he := by
    -- What is to be given back is in use, so this does not happen.
    have hmem : v ∈ t.held id := by
      rw [hheld]
      exact Multiset.mem_add.mpr (.inl (Multiset.mem_singleton_self v))
    obtain ⟨-, hnot⟩ := run_free_error he
    rw [ScopeTree.mem_held, ScopeTree.InUse, hnot] at hmem
    cases hmem

theorem collect {b : Build α} (h : Balances id given b taken) :
    Balances id given (Build.collect b) fun a => taken a.1 where
  of_ok t frame r ht hheld hr := by
    obtain ⟨inner, hinner, rfl⟩ := run_collect_ok.mp hr
    exact h.of_ok t frame inner ht hheld hinner
  of_error t frame e v ht hheld he := h.of_error t frame e v ht hheld (run_collect_error.mp he)

theorem codeOf {b : Build Unit} (h : Balances id given b fun _ => m) :
    Balances id given (Build.codeOf b) fun _ => m where
  of_ok t frame r ht hheld hr := by
    obtain ⟨inner, hinner, rfl⟩ := run_codeOf_ok.mp hr
    exact h.of_ok t frame inner ht hheld hinner
  of_error t frame e v ht hheld he := h.of_error t frame e v ht hheld (run_codeOf_error.mp he)

theorem locate {b : Build α} (span : Span) (h : Balances id given b taken) :
    Balances id given (Build.locate span b) taken where
  of_ok t frame r ht hheld hr := h.of_ok t frame r ht hheld (run_locate_ok.mp hr)
  of_error t frame e v ht hheld he := by
    obtain ⟨e', he', hcause⟩ := run_locate_error he
    rw [← hcause]
    exact h.of_error t frame e' v ht hheld he'

end Balances

end Build

end Goward
