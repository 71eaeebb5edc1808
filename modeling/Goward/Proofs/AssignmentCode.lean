import Goward.Proofs.Assignment

/-!
# The code of an assignment

The code of an assignment hands on the expression for the value to every target. If that is the slot
of a name, a target that is unpacked may store into it while other targets are still to come. Main
result: this is exactly when the code of an assignment differs from its meaning.
-/

namespace Goward

open Goward.Build Goward.Code

variable {V : Type}

theorem ScopeTree.Sound.names_eq {t u : ScopeTree} {id : Nat} (ht : t.Sound id) (h : t.GrowsTo u) :
    u.names id = t.names id := by
  rw [names, names, funext (ht.access_eq h), funext (h.home?_eq ht.isSome)]

/-- The code from one tree to another changes the memory as given and leaves the scratch variables
that are in use alone; the same ones are in use afterwards. -/
structure Stored (R : Runtime V) (id : Nat) (t u : ScopeTree) (code : List Step)
    (f : State V → Memory V) : Prop where
  sound : u.Sound id
  grows : t.GrowsTo u
  inUse : ∀ w, u.InUse id w ↔ t.InUse id w
  run : ∀ σ, ∃ τ, runAll? R σ code = some τ ∧ τ.memory = f σ ∧
    ∀ w, t.InUse id w → τ.temps w.name = σ.temps w.name

namespace Stored

variable {R : Runtime V} {id : Nat} {t u w : ScopeTree} {code code' : List Step}
  {f g : State V → Memory V}

theorem nil (ht : t.Sound id) : Stored R id t t [] State.memory :=
  ⟨ht, .refl t, fun _ => .rfl, fun σ => ⟨σ, rfl, rfl, fun _ _ => rfl⟩⟩

/-- One action that does not touch scratch variables. -/
theorem act (ht : t.Sound id) {a : Action} (hf : ∀ σ, (a.run R σ).memory = f σ)
    (ha : ∀ σ, (a.run R σ).temps = σ.temps) : Stored R id t t [.action a] f :=
  ⟨ht, .refl t, fun _ => .rfl, fun σ => ⟨_, rfl, hf σ, fun _ _ => congrFun (ha σ) _⟩⟩

/-- Code in a row. What the second piece does may depend on variables that are in use before. -/
theorem append (h : Stored R id t u code f) (h' : Stored R id u w code' g)
    {k : State V → Memory V}
    (hk : ∀ σ τ, τ.memory = f σ → (∀ x, t.InUse id x → τ.temps x.name = σ.temps x.name) →
      g τ = k σ) : Stored R id t w (code ++ code') k := by
  refine ⟨h'.sound, h.grows.trans h'.grows, fun x => (h'.inUse x).trans (h.inUse x), fun σ => ?_⟩
  obtain ⟨τ, hrun, hmemory, htemps⟩ := h.run σ
  obtain ⟨υ, hrun', hmemory', htemps'⟩ := h'.run τ
  refine ⟨υ, (runAll?_append hrun).trans hrun', hmemory'.trans (hk σ τ hmemory htemps), ?_⟩
  intro x hx
  exact (htemps' x ((h.inUse x).mpr hx)).trans (htemps x hx)

theorem afterIntern {s : String} (h : Stored R id (t.intern s).2 u code f) :
    Stored R id t u code f :=
  ⟨h.sound, (ScopeTree.growsTo_treeRelation.intern t s).trans h.grows, h.inUse, h.run⟩

end Stored

theorem storeName_stored (R : Runtime V) {id : Nat} {x : String} {v : Value} {t : ScopeTree}
    {r : Built Unit} (ht : t.Sound id) (hr : (storeName id x v).run t = .ok r) :
    Stored R id t r.tree r.code fun σ =>
      (Expr.name x).assign R (t.names id) (v.denote R σ) σ.memory := by
  have hkey := t.intern_string x
  obtain ⟨first, h₁, second, h₂, rfl⟩ := run_bind_ok.mp hr
  cases h₁
  cases hhome : t.home? id x with
  | none =>
    simp only [hhome] at h₂
    cases h₂
  | some home =>
    simp only [Expr.assign, ScopeTree.names, hhome]
    cases home with
    | globals =>
      simp only [hhome] at h₂
      cases h₂
      refine (Stored.act (ht.intern x) (fun σ => ?_) fun σ => rfl).afterIntern
      show (σ.ask (.setItem .globals (t.intern x).1.string (v.denote R σ))).memory = _
      rw [hkey]
      rfl
    | classBody =>
      simp only [hhome] at h₂
      cases h₂
      refine (Stored.act (ht.intern x) (fun σ => ?_) fun σ => rfl).afterIntern
      show (σ.ask (.setItem .classBody (t.intern x).1.string (v.denote R σ))).memory = _
      rw [hkey]
      rfl
    | slot =>
      simp only [hhome] at h₂
      cases h₂
      exact .act ht (fun σ => rfl) fun σ => rfl

theorem Expr.assignItems_congr {R : Runtime V} {n : Names} (es : List Expr) {f g : Nat → V} :
    ∀ index (m : Memory V), (∀ i < index + es.length, f i = g i) →
      Expr.assignItems R n es f index m = Expr.assignItems R n es g index m := by
  induction es with
  | nil => exact fun _ _ _ => rfl
  | cons e rest ih =>
    intro index m h
    rw [List.length_cons] at h
    rw [Expr.assignItems, Expr.assignItems, h index (by omega)]
    exact ih (index + 1) _ fun i hi => h i (by omega)

theorem unpack_ok {id : Nat} {v : Value} {size : Nat} {store : Temp → Build Unit} {t : ScopeTree}
    {r : Built Unit} (hr : (unpack id v size store).run t = .ok r) :
    ∃ items u inner, t.GrowsTo u ∧ (store items).run u = .ok inner := by
  obtain ⟨acquired, h₁, second, h₂, -⟩ := run_bind_ok.mp hr
  cases h₁
  obtain ⟨made, hmade, third, h₃, -⟩ := run_bind_ok.mp h₂
  cases hmade
  obtain ⟨tied, htied, fourth, h₄, -⟩ := run_bind_ok.mp h₃
  cases htied
  obtain ⟨stored, hstored, -⟩ := run_bind_ok.mp h₄
  exact ⟨_, _, stored, ScopeTree.growsTo_alloc t id arrayType, hstored⟩

/-- The code that takes a value apart, around that which stores the elements. -/
theorem unpack_stored (R : Runtime V) {id : Nat} {elts : List Expr} {v : Value}
    (hitems : ∀ items t r, t.Sound id → t.InUse id items →
      (storeItems id items 0 elts).run t = .ok r →
        Stored R id t r.tree r.code fun σ => Expr.assignItems R (t.names id) elts
          (σ.temps items.name).element 0 σ.memory)
    {t : ScopeTree} {r : Built Unit} (ht : t.Sound id) (hv : ∀ w ∈ v.temps, t.InUse id w)
    (hr : (unpack id v elts.length fun items => storeItems id items 0 elts).run t = .ok r) :
    Stored R id t r.tree r.code fun σ =>
      (Expr.tuple elts).assign R (t.names id) (v.denote R σ) σ.memory := by
  obtain ⟨acquired, h₁, second, h₂, rfl⟩ := run_bind_ok.mp hr
  rw [run_acquire, Except.ok.injEq] at h₁
  subst h₁
  obtain ⟨made, hmade, third, h₃, rfl⟩ := run_bind_ok.mp h₂
  cases hmade
  obtain ⟨tied, htied, fourth, h₄, rfl⟩ := run_bind_ok.mp h₃
  cases htied
  obtain ⟨stored, hstored, rel, hrel, rfl⟩ := run_bind_ok.mp h₄
  obtain ⟨u, hu, rfl⟩ := run_release_ok.mp hrel
  have h := hitems _ _ stored ht.alloc (ht.alloc_inUse.mpr (.inr rfl)) hstored
  have hgrows := ScopeTree.growsTo_alloc t id arrayType
  rw [ht.names_eq hgrows] at h
  generalize hitem : (t.alloc id arrayType).1 = items at h hu ⊢
  have hfresh (w : Temp) (hw : t.InUse id w) : w.name ≠ items.name := hitem ▸ ht.alloc_fresh hw
  refine ⟨h.sound.free hu, ?_, fun w => ?_, fun σ => ?_⟩
  · exact hgrows.trans (h.grows.trans (ScopeTree.growsTo_treeRelation.free hu))
  · rw [h.sound.free_inUse hu, h.inUse, ht.alloc_inUse, hitem]
    constructor
    · rintro ⟨hw | hw, hne⟩
      · exact hw
      · exact absurd hw hne
    · intro hw
      exact ⟨.inl hw, fun heq => hfresh w hw (congrArg Temp.name heq)⟩
  · let q : Request V := .tie elts.length (v.denote R σ)
    let blank : Content V := ⟨R.blank, fun _ => R.blank⟩
    let filled := blank.refill elts.length (R.answer (σ.trace ++ [q]))
    let σ₁ := σ.setTemp items blank
    let σ₂ := (σ₁.ask q).setTemp items filled
    have hkept (w : Temp) (hw : t.InUse id w) : σ₂.temps w.name = σ.temps w.name :=
      (State.setTemp_of_ne (hfresh w hw) filled).trans (State.setTemp_of_ne (hfresh w hw) blank)
    have htie : (Action.perform (.tie items elts.length v)).run R σ₁ = σ₂ := by
      have hdenote : v.denote R σ₁ = v.denote R σ :=
        Value.denote_congr rfl fun w hw => State.setTemp_of_ne (hfresh w (hv w hw)) blank
      have hblank : σ₁.temps items.name = blank := State.setTemp_same ..
      simp only [Action.run, hdenote, hblank]
      rfl
    obtain ⟨τ, hrun, hmemory, htemps⟩ := h.run σ₂
    refine ⟨τ, ?_, ?_, fun w hw => ?_⟩
    · show runAll? R ((Action.perform (.tie items elts.length v)).run R σ₁) (stored.code ++ _) = _
      rw [htie, runAll?_append hrun]
      rfl
    · rw [hmemory, State.setTemp_same]
      refine Expr.assignItems_congr elts 0 _ fun i hi => ?_
      rw [Nat.zero_add] at hi
      exact if_pos hi
    · exact (htemps w (ht.alloc_inUse.mpr (.inl hw))).trans (hkept w hw)

theorem setAttr_stored (R : Runtime V) {id : Nat} {v : Value} {obj : Expr} {key : String}
    {t : ScopeTree} {r : Built Unit} (ht : t.Sound id) (hv : ∀ w ∈ v.temps, t.InUse id w)
    (hr : (storeInto id v (.attr obj key)).run t = .ok r) :
    Stored R id t r.tree r.code fun σ =>
      (Expr.attr obj key).assign R (t.names id) (v.denote R σ) σ.memory := by
  obtain ⟨first, h₁, second, h₂, rfl⟩ := run_bind_ok.mp hr
  obtain ⟨interned, h₃, third, h₄, rfl⟩ := run_bind_ok.mp h₂
  cases h₃
  obtain ⟨acted, h₅, rel, hrel, rfl⟩ := run_bind_ok.mp h₄
  cases h₅
  have hkey := first.tree.intern_string key
  have h := lowerExpr_evaluated R id obj t first ht h₁
  obtain ⟨hsound, hgrows, hback, hrun⟩ := released R (h.intern key).sound (h.intern key).inUse
    h.fresh (releaseValue_eq id first.value _ rel hrel)
  refine ⟨hsound, (h.intern key).grows.trans hgrows, hback, fun σ => ?_⟩
  obtain ⟨τ, hcode, hframe, heval⟩ := h.run σ
  have hobj : (obj.eval R (t.access id) σ.slots σ.trace).1 = first.value.denote R τ :=
    List.head_eq_of_cons_eq (congrArg Prod.fst heval)
  have htrace : (obj.eval R (t.access id) σ.slots σ.trace).2 = τ.trace :=
    congrArg (fun p => p.2) heval
  refine ⟨τ.ask (.setAttr (first.value.denote R τ) key (v.denote R τ)), ?_, ?_, hframe.temps⟩
  · rw [runAll?_append hcode]
    show runAll? R (τ.ask (.setAttr (first.value.denote R τ) (first.tree.intern key).1.string
      (v.denote R τ))) rel.code = _
    rw [hrun, hkey]
  · show _ = (⟨σ.slots, (obj.eval R (t.access id) σ.slots σ.trace).2 ++
      [.setAttr (obj.eval R (t.access id) σ.slots σ.trace).1 key (v.denote R σ)]⟩ : Memory V)
    rw [hobj, htrace, hframe.denote hv, ← hframe.slots]
    rfl

mutual

theorem storeInto_stored (R : Runtime V) (id : Nat) : (e : Expr) → ∀ v t r, t.Sound id →
    (∀ w ∈ v.temps, t.InUse id w) → (storeInto id v e).run t = .ok r →
      Stored R id t r.tree r.code fun σ => e.assign R (t.names id) (v.denote R σ) σ.memory
  | .name _, _, _, _, ht, _, hr => storeName_stored R ht hr
  | .attr _ _, _, _, _, ht, hv, hr => setAttr_stored R ht hv hr
  | .tuple elts, _, _, _, ht, hv, hr =>
    unpack_stored R (fun items => storeItems_stored R id elts items 0) ht hv hr
  | .list elts, _, _, _, ht, hv, hr =>
    unpack_stored R (fun items => storeItems_stored R id elts items 0) ht hv hr
  | .str _, _, _, _, _, _, hr | .int _, _, _, _, _, _, hr | .call _ _, _, _, _, _, _, hr
  | .binop _ _ _, _, _, _, _, _, hr | .yield _, _, _, _, _, _, hr => nomatch hr

theorem storeItems_stored (R : Runtime V) (id : Nat) : (es : List Expr) →
    ∀ items index t r, t.Sound id → t.InUse id items →
      (storeItems id items index es).run t = .ok r →
        Stored R id t r.tree r.code fun σ => Expr.assignItems R (t.names id) es
          (σ.temps items.name).element index σ.memory
  | [], _, _, _, _, ht, _, hr => by
    cases hr
    exact .nil ht
  | e :: rest, items, index, t, r, ht, hitems, hr => by
    obtain ⟨first, h₁, second, h₂, rfl⟩ := run_bind_ok.mp hr
    have he := storeInto_stored R id e (.item items index) t first ht
      (fun w hw => List.mem_singleton.mp hw ▸ hitems) h₁
    have hrest := storeItems_stored R id rest items (index + 1) first.tree second he.sound
      ((he.inUse items).mpr hitems) h₂
    rw [ht.names_eq he.grows] at hrest
    refine he.append hrest fun σ τ hmemory htemps => ?_
    rw [hmemory, htemps items hitems]
    rfl

end

section Assignable

open ScopeTree (growsTo_treeRelation)

variable {id : Nat} {t₀ : ScopeTree}

mutual

/-- Code is generated only for targets that can be assigned to. -/
theorem storeInto_assignable (ht : t₀.Sound id) : (e : Expr) → ∀ v t r, t₀.GrowsTo t →
    (storeInto id v e).run t = .ok r → e.Assignable (t₀.names id)
  | .name x, v, t, r, hg, hr => by
    obtain ⟨first, h₁, second, h₂, -⟩ := run_bind_ok.mp hr
    cases h₁
    cases hhome : t.home? id x with
    | none =>
      simp only [hhome] at h₂
      cases h₂
    | some home => exact .name ((hg.home?_eq ht.isSome x).symm.trans hhome)
  | .attr obj key, _, _, _, _, _ => .attr obj key
  | .tuple elts, v, t, r, hg, hr => by
    obtain ⟨items, u, inner, hu, hinner⟩ := unpack_ok hr
    exact .tuple (storeItems_assignable ht elts items 0 u inner (hg.trans hu) hinner)
  | .list elts, v, t, r, hg, hr => by
    obtain ⟨items, u, inner, hu, hinner⟩ := unpack_ok hr
    exact .list (storeItems_assignable ht elts items 0 u inner (hg.trans hu) hinner)
  | .str _, _, _, _, _, hr | .int _, _, _, _, _, hr | .call _ _, _, _, _, _, hr
  | .binop _ _ _, _, _, _, _, hr | .yield _, _, _, _, _, hr => nomatch hr

theorem storeItems_assignable (ht : t₀.Sound id) : (es : List Expr) → ∀ items index t r,
    t₀.GrowsTo t → (storeItems id items index es).run t = .ok r →
      ∀ e ∈ es, e.Assignable (t₀.names id)
  | [], _, _, _, _, _, _ => fun _ he => nomatch he
  | e :: rest, items, index, t, r, hg, hr => by
    obtain ⟨first, h₁, second, h₂, -⟩ := run_bind_ok.mp hr
    have hfirst := growsTo_treeRelation.keeps.storeInto id (.item items index) e t first h₁
    rw [List.forall_mem_cons]
    exact ⟨storeInto_assignable ht e _ t first hg h₁,
      storeItems_assignable ht rest items _ first.tree second (hg.trans hfirst) h₂⟩

end

theorem storeIntoAll_assignable (ht : t₀.Sound id) (v : Value) (es : List Expr) :
    ∀ t r, t₀.GrowsTo t → (storeIntoAll id v es).run t = .ok r →
      ∀ e ∈ es, e.Assignable (t₀.names id) := by
  induction es with
  | nil => exact fun _ _ _ _ _ he => nomatch he
  | cons e rest ih =>
    intro t r hg hr
    obtain ⟨first, h₁, second, h₂, -⟩ := run_bind_ok.mp hr
    have hfirst := growsTo_treeRelation.keeps.storeInto id v e t first h₁
    rw [List.forall_mem_cons]
    exact ⟨storeInto_assignable ht e v t first hg h₁, ih first.tree second (hg.trans hfirst) h₂⟩

end Assignable

/-! ### The code of an assignment -/

/-- The state with another memory. -/
def Code.State.withMemory (σ : State V) (m : Memory V) : State V :=
  { σ with slots := m.slots, trace := m.trace }

/-- Code for several targets looks the value up for each of them. -/
theorem storeIntoAll_stored (R : Runtime V) (id : Nat) (v : Value) (es : List Expr) :
    ∀ t r, t.Sound id → (∀ w ∈ v.temps, t.InUse id w) → (storeIntoAll id v es).run t = .ok r →
      Stored R id t r.tree r.code fun σ => Expr.assignEach R (t.names id) es
        (fun m => v.denote R (σ.withMemory m)) σ.memory := by
  induction es with
  | nil =>
    intro t r ht _ hr
    cases hr
    exact .nil ht
  | cons e rest ih =>
    intro t r ht hv hr
    obtain ⟨first, h₁, second, h₂, rfl⟩ := run_bind_ok.mp hr
    have he := storeInto_stored R id e v t first ht hv h₁
    have hrest := ih first.tree second he.sound (fun w hw => (he.inUse w).mpr (hv w hw)) h₂
    rw [ht.names_eq he.grows] at hrest
    refine he.append hrest fun σ τ hmemory htemps => ?_
    have hvalue : (fun m => v.denote R (τ.withMemory m)) = fun m => v.denote R (σ.withMemory m) :=
      funext fun m => Value.denote_congr rfl fun w hw => htemps w (hv w hw)
    rw [hmemory, hvalue]
    rfl

theorem annotate_run {cx : Context} {span : Span} {t : ScopeTree} {r : Built Unit}
    (hr : (annotate cx span).run t = .ok r) :
    r.tree = t ∧ ∀ {V : Type} (R : Runtime V) σ, runAll? R σ r.code = some σ := by
  unfold annotate at hr
  split at hr
  · cases hr
    exact ⟨rfl, fun _ _ => rfl⟩
  · split at hr
    · cases hr
      exact ⟨rfl, fun _ _ => rfl⟩
    · cases hr
      exact ⟨rfl, fun _ _ => rfl⟩

/-- A value that is not the slot of a name. -/
def Code.Value.NotSlot (v : Value) : Prop := ∀ x, v ≠ .slot x

theorem constructFrom_notSlot (id : Nat) (k : Construction) (vs : List Value) :
    Gives Value.NotSlot (constructFrom id k vs) :=
  .bind fun _ => .bind fun _ => .bind fun _ => .pure nofun

theorem callWith_notSlot (id : Nat) (c : Call) (vs : List Value) :
    Gives Value.NotSlot (callWith id c vs) :=
  .bind fun _ => .bind fun _ => .pure nofun

theorem suspend_notSlot (id : Nat) (v : Value) : Gives Value.NotSlot (suspend id v) :=
  .bind fun _ => .bind fun _ => constructFrom_notSlot id _ _

theorem lowerExpr_notSlot (id : Nat) :
    (e : Expr) → (∀ x, e ≠ .name x) → Gives Value.NotSlot (lowerExpr id e)
  | .name x, h => absurd rfl (h x)
  | .str _, _ => .bind fun _ => .pure nofun
  | .int _, _ => .pure nofun
  | .tuple _, _ => .bind fun _ => constructFrom_notSlot id _ _
  | .list _, _ => .bind fun _ => constructFrom_notSlot id _ _
  | .attr _ _, _ => .bind fun _ => .bind fun _ => callWith_notSlot id _ _
  | .call _ _, _ => .bind fun _ => .bind fun _ => callWith_notSlot id _ _
  | .binop _ _ _, _ => .bind fun _ => .bind fun _ => callWith_notSlot id _ _
  | .yield none, _ => .bind fun _ => suspend_notSlot id _
  | .yield (some _), _ => .bind fun _ => .bind fun _ => suspend_notSlot id _

theorem readName_value {id : Nat} {x : String} {t : ScopeTree} {r : Built Value}
    (hr : (readName id x).run t = .ok r) :
    (t.access id x = .slot ∧ r.value = .slot x) ∨ (t.access id x ≠ .slot ∧ r.value.NotSlot) := by
  obtain ⟨first, h₁, second, h₂, rfl⟩ := run_bind_ok.mp hr
  cases h₁
  cases haccess : t.access id x with
  | globals =>
    simp only [haccess] at h₂
    cases h₂
    exact .inr ⟨nofun, nofun⟩
  | classBody closure =>
    simp only [haccess] at h₂
    cases h₂
    exact .inr ⟨nofun, nofun⟩
  | slot =>
    simp only [haccess] at h₂
    cases h₂
    exact .inl ⟨rfl, rfl⟩

/-- The value of an expression is a slot exactly if it is a name that is read from one. -/
theorem lowerExpr_slot_iff {id : Nat} {e : Expr} {t : ScopeTree} {r : Built Value}
    (hr : (lowerExpr id e).run t = .ok r) (x : String) :
    r.value = .slot x ↔ e = .name x ∧ t.access id x = .slot := by
  by_cases hname : ∃ y, e = .name y
  · obtain ⟨y, rfl⟩ := hname
    rcases readName_value hr with ⟨haccess, hvalue⟩ | ⟨haccess, hvalue⟩
    · rw [hvalue, Value.slot.injEq, Expr.name.injEq]
      constructor
      · rintro rfl
        exact ⟨rfl, haccess⟩
      · exact And.left
    · refine iff_of_false (hvalue x) ?_
      rintro ⟨⟨rfl⟩, hslot⟩
      exact haccess hslot
  · rw [not_exists] at hname
    exact iff_of_false (lowerExpr_notSlot id e hname t r hr x) fun h => hname x h.1

/-- Where a name of which the slot is read is stored. -/
theorem ScopeTree.home?_of_access_slot {t : ScopeTree} {id : Nat} {x : String} {home : Home}
    (haccess : t.access id x = .slot) (hhome : t.home? id x = some home) : home = .slot := by
  unfold access at haccess
  unfold home? at hhome
  cases hs : t.scope? id with
  | none => simp [hs] at haccess
  | some s =>
    simp only [hs] at haccess hhome
    cases hkind : s.kind with
    | module => simp [hkind] at haccess
    | classBody globals =>
      simp only [hkind] at haccess
      split at haccess <;> cases haccess
    | function f =>
      simp only [hkind] at haccess hhome
      cases hx : f.vars.find? x with
      | none => simp [hx] at hhome
      | some kind =>
        have hlookup : s.lookup? x = some kind := by
          simp [Scope.lookup?, Scope.function?, hkind, hx]
        have hmodule : s.isModule = false := by simp [Scope.isModule, hkind]
        rw [inSlot, enclosing?_eq, hs] at haccess
        simp only [hmodule, hlookup, Bool.false_eq_true, if_false, Option.some_or,
          Option.any_some] at haccess
        cases kind <;> simp_all

theorem Expr.mem_boundNamesAll {x : String} {es : List Expr} :
    x ∈ boundNamesAll es ↔ ∃ e ∈ es, x ∈ e.boundNames := by
  induction es with
  | nil => simp [boundNamesAll]
  | cons e rest ih => simp [boundNamesAll, ih]

theorem Expr.Assignable.home {n : Names} {x : String} {e : Expr} (h : e.Assignable n) :
    x ∈ e.boundNames → ∃ home, n.home x = some home := by
  induction h with
  | name hhome =>
    intro hx
    obtain rfl := List.mem_singleton.mp hx
    exact ⟨_, hhome⟩
  | attr => exact fun hx => nomatch hx
  | tuple _ ih =>
    intro hx
    obtain ⟨e, he, hx⟩ := Expr.mem_boundNamesAll.mp hx
    exact ih e he hx
  | list _ ih =>
    intro hx
    obtain ⟨e, he, hx⟩ := Expr.mem_boundNamesAll.mp hx
    exact ih e he hx

theorem Expr.unpackedNames_subset {e : Expr} {x : String} (h : x ∈ e.unpackedNames) :
    x ∈ e.boundNames := by
  cases e with
  | tuple elts => exact h
  | list elts => exact h
  | name _ | attr _ _ | str _ | int _ | call _ _ | binop _ _ _ | yield _ => cases h

/-- What the code of an assignment does, with the value that is handed on to the targets. -/
theorem assign_run {cx : Context} {t : ScopeTree} {id : Nat} (ht : t.Sound id) {inLoop : Bool}
    {span : Span} {targets : List Expr} {value : Expr} {r : Built Unit}
    (hr : (lowerStmt cx id inLoop (.mk span (.assign targets value))).run t = .ok r) :
    (∀ e ∈ targets, e.Assignable (t.names id)) ∧
    ∃ v : Value, (∀ x, v = .slot x ↔ value = .name x ∧ t.access id x = .slot) ∧
      ∀ {V : Type} (R : Runtime V) σ, ∃ σ₁ τ, runAll? R σ r.code = some τ ∧ σ₁.slots = σ.slots ∧
        value.eval R (t.access id) σ.slots σ.trace = (v.denote R σ₁, σ₁.trace) ∧
        τ.memory = Expr.assignEach R (t.names id) targets (fun m => v.denote R (σ₁.withMemory m))
          σ₁.memory := by
  obtain ⟨annotated, hannotate, located, hlocated, rfl⟩ := run_bind_ok.mp hr
  obtain ⟨htree, hcomment⟩ := annotate_run hannotate
  rw [htree] at hlocated
  obtain ⟨first, h₁, second, h₂, rfl⟩ := run_bind_ok.mp (run_locate_ok.mp hlocated)
  obtain ⟨stored, hstored, rel, hrel, rfl⟩ := run_bind_ok.mp h₂
  have hgrows := ScopeTree.growsTo_treeRelation.keeps.lowerExpr id value t first h₁
  refine ⟨storeIntoAll_assignable ht first.value targets first.tree stored hgrows hstored,
    first.value, lowerExpr_slot_iff h₁, fun R σ => ?_⟩
  have hvalue := lowerExpr_evaluated R id value t first ht h₁
  have hin (w : Temp) (hw : w ∈ first.value.temps) : first.tree.InUse id w := by
    refine (hvalue.inUse w).mpr (.inr ?_)
    rwa [hvalue.owned, List.flatMap_singleton]
  have htargets := storeIntoAll_stored R id first.value targets first.tree stored hvalue.sound hin
    hstored
  rw [ht.names_eq hgrows] at htargets
  obtain ⟨-, -, -, hrelease⟩ := released R htargets.sound
    (fun x => (htargets.inUse x).trans (hvalue.inUse x)) hvalue.fresh
    (releaseValue_eq id first.value stored.tree rel hrel)
  obtain ⟨σ₁, hcode, hframe, heval⟩ := hvalue.run σ
  obtain ⟨τ, hrun, hmemory, -⟩ := htargets.run σ₁
  refine ⟨σ₁, τ, ?_, hframe.slots, ?_, hmemory⟩
  · rw [runAll?_append (hcomment R σ), runAll?_append hcode, runAll?_append hrun, hrelease]
  · have hresult : (value.eval R (t.access id) σ.slots σ.trace).1 = first.value.denote R σ₁ :=
      List.head_eq_of_cons_eq (congrArg Prod.fst heval)
    exact Prod.ext hresult (congrArg (fun p => p.2) heval)

/-- The code of an assignment is correct in every state and with every runtime exactly if no target
but the last one unpacks into the slot that the value is read from: then it evaluates the value once
and assigns this one value to each target in turn. -/
theorem assign_correct_iff {cx : Context} {t : ScopeTree} (ht : t.Reached) {id : Nat}
    (hid : (t.scope? id).isSome) {inLoop : Bool} {span : Span} {targets : List Expr} {value : Expr}
    {r : Built Unit}
    (hr : (lowerStmt cx id inLoop (.mk span (.assign targets value))).run t = .ok r) :
    (∀ (V : Type) (R : Runtime V) (σ : State V), ∃ τ, runAll? R σ r.code = some τ ∧
      τ.memory = Expr.assignAll R (t.names id) targets value σ.memory) ↔
        ¬Clobbered (t.names id) targets value := by
  obtain ⟨hassignable, v, hslot, hrun⟩ := assign_run (ht.sound id hid) hr
  constructor
  · rintro hall ⟨x, rfl, haccess, hunpacked⟩
    obtain rfl := (hslot x).mpr ⟨rfl, haccess⟩
    obtain ⟨τ, hcode, hcorrect⟩ := hall Bool .falsy .truthy
    obtain ⟨σ₁, τ', hcode', hslots, heval, hmemory⟩ := hrun .falsy .truthy
    obtain rfl : τ = τ' := Option.some.inj (hcode.symm.trans hcode')
    obtain ⟨e, he, hx⟩ := hunpacked
    obtain ⟨home, hhome⟩ := (hassignable e (List.dropLast_subset targets he)).home
      (Expr.unpackedNames_subset hx)
    obtain rfl := ScopeTree.home?_of_access_slot haccess hhome
    refine Expr.assignEach_slot_ne hhome hassignable ⟨e, he, hx⟩ (m := σ₁.memory)
      (congrFun hslots x) (hmemory.symm.trans (hcorrect.trans ?_))
    show Expr.assignEach .falsy (t.names id) targets
      (fun _ => ((Expr.name x).eval .falsy (t.access id) State.truthy.slots State.truthy.trace).1)
      ⟨State.truthy.slots,
        ((Expr.name x).eval .falsy (t.access id) State.truthy.slots State.truthy.trace).2⟩ = _
    rw [heval, ← hslots]
    rfl
  · intro hnot V R σ
    obtain ⟨σ₁, τ, hcode, hslots, heval, hmemory⟩ := hrun R σ
    refine ⟨τ, hcode, hmemory.trans ?_⟩
    show _ = Expr.assignEach R (t.names id) targets
      (fun _ => (value.eval R (t.access id) σ.slots σ.trace).1)
      ⟨σ.slots, (value.eval R (t.access id) σ.slots σ.trace).2⟩
    rw [heval, ← hslots]
    by_cases hread : ∃ x, v = .slot x
    · obtain ⟨x, rfl⟩ := hread
      obtain ⟨rfl, haccess⟩ := (hslot x).mp rfl
      refine Expr.assignEach_slot targets σ₁.memory fun e he hx => ?_
      exact hnot ⟨x, rfl, haccess, e, he, hx⟩
    · have hconst : (fun m => v.denote R (σ₁.withMemory m)) = fun _ => v.denote R σ₁ := by
        funext m
        cases v with
        | slot x => exact absurd ⟨x, rfl⟩ hread
        | temp _ | str _ | int _ | noneObject | item _ _ | verbatim _ => rfl
      rw [hconst]
      rfl

/-- The code of `a = b = a` in a function: storing into `a` itself does no harm. -/
theorem assign_correct_names :
    ∃ r, (lowerStmt { options := {}, source := none } 1 false
        (.mk .nowhere (.assign [.name "a", .name "b"] (.name "a")))).run
          (.ofFunction ["a", "b"] false) = .ok r ∧
      ((∀ (V : Type) (R : Runtime V) (σ : State V), ∃ τ, runAll? R σ r.code = some τ ∧
        τ.memory = Expr.assignAll R ((ScopeTree.ofFunction ["a", "b"] false).names 1)
          [.name "a", .name "b"] (.name "a") σ.memory) ↔
        ¬Clobbered ((ScopeTree.ofFunction ["a", "b"] false).names 1) [.name "a", .name "b"]
          (.name "a")) := by
  have hok : ((lowerStmt { options := {}, source := none } 1 false
    (.mk .nowhere (.assign [.name "a", .name "b"] (.name "a")))).run
      (.ofFunction ["a", "b"] false)).toBool = true := by decide +kernel
  cases hr : (lowerStmt { options := {}, source := none } 1 false
    (.mk .nowhere (.assign [.name "a", .name "b"] (.name "a")))).run
      (.ofFunction ["a", "b"] false) with
  | error e =>
    rw [hr] at hok
    cases hok
  | ok r => exact ⟨r, rfl, assign_correct_iff (.push _ _ _ (.ofOptions {}) rfl) rfl hr⟩

/-- The code of `a, b = c = a` in a function gives `c` what `a` was unpacked into, not the value
that `a` had before. -/
theorem assign_unpacked_name :
    (((lowerStmt { options := {}, source := none } 1 false
        (.mk .nowhere (.assign [.tuple [.name "a", .name "b"], .name "c"] (.name "a")))).run
          (.ofFunction ["a", "b", "c"] false)).toOption.bind
        fun r => runAll? .falsy .truthy r.code).map (·.slots "c") = some false ∧
      (Expr.assignAll .falsy ((ScopeTree.ofFunction ["a", "b", "c"] false).names 1)
        [.tuple [.name "a", .name "b"], .name "c"] (.name "a") State.truthy.memory).slots "c" =
          true := by
  constructor
  · decide +kernel
  · decide +kernel

end Goward
