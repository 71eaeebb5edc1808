import Mathlib.Data.List.Nodup
import Goward.Proofs.Growth

/-!
# Scratch variables in use

The variables of a pool have different names, so a variable that is handed out is not the same Go
variable as any other one that is in use. Handing out and giving back change nothing else about what
is in use. This holds in every scope of every tree that can be reached.
-/

namespace Goward

theorem Text.toList_toString (n : Nat) : (toString n).toList = Nat.toDigits 10 n := Nat.toList_repr

theorem Text.isDigit_of_mem_toString {n : Nat} : ∀ c ∈ (toString n).toList, c.isDigit = true := by
  intro c hc
  rw [toList_toString] at hc
  exact Nat.isDigit_of_mem_toDigits (by decide) (by decide) hc

namespace Temp

theorem ofDigitChars_number (n : Nat) : Nat.ofDigitChars 10 (number n).toList 0 = n := by
  rw [number, String.toList_append, String.toList_ofList, Text.toList_toString, Nat.ofDigitChars_append,
    Nat.ofDigitChars_replicate_zero, Nat.mul_zero, Nat.ofDigitChars_ten_toDigits]

theorem number_injective {m n : Nat} (h : number m = number n) : m = n := by
  have hm := ofDigitChars_number m
  rw [h, ofDigitChars_number] at hm
  exact hm.symm

theorem numbered_name_inj {m n : Nat} {type type' : String} :
    (numbered m type).name = (numbered n type').name ↔ m = n := by
  constructor
  · intro h
    have htext : ("πTemp" ++ number m).toList = ("πTemp" ++ number n).toList :=
      congrArg String.toList h
    rw [String.toList_append, String.toList_append] at htext
    exact number_injective (String.toList_inj.mp (List.append_cancel_left htext))
  · rintro rfl
    rfl

end Temp

theorem Text.insertByKey_perm {α : Type} (key : α → String) (x : α) (xs : List α) :
    (insertByKey key x xs).Perm (x :: xs) := by
  induction xs with
  | nil => exact .refl _
  | cons y rest ih =>
    unfold insertByKey
    split
    · exact .refl _
    · exact (ih.cons y).trans (.swap x y rest)

namespace Pool

/-- The variables have different names, and the names that were not given out yet come later. -/
structure Valid (p : Pool) : Prop where
  nodup : (p.temps.map (·.name)).Nodup
  numbered : ∀ v ∈ p.temps, ∃ k ≤ p.size, v.name = (Temp.numbered k v.type).name

variable {p q : Pool} {v w : Temp} {type : String}

theorem isInUse_iff : p.isInUse v = true ↔ ⟨v, true⟩ ∈ p.entries := by
  rw [isInUse, List.any_eq_true]
  constructor
  · rintro ⟨⟨temp, inUse⟩, he, h⟩
    rw [Bool.and_eq_true, beq_iff_eq] at h
    obtain ⟨rfl, rfl⟩ := h
    exact he
  · intro h
    exact ⟨_, h, by simp⟩

theorem mem_temps_of_isInUse (h : p.isInUse v = true) : v ∈ p.temps :=
  List.mem_map.mpr ⟨_, isInUse_iff.mp h, rfl⟩

theorem available?_mem (h : p.available? type = some v) : ⟨v, false⟩ ∈ p.entries := by
  obtain ⟨⟨temp, inUse⟩, he, rfl⟩ := Option.map_eq_some_iff.mp h
  have hp := List.find?_some he
  rw [Bool.and_eq_true, Bool.not_eq_true'] at hp
  obtain rfl : inUse = false := hp.1
  exact List.mem_of_find?_eq_some he

@[simp] theorem temps_mark (p : Pool) (v : Temp) (b : Bool) : (p.mark v b).temps = p.temps := by
  rw [mark, temps, temps, List.map_map]
  refine List.map_congr_left fun e _ => ?_
  show (if e.temp = v then { e with inUse := b } else e).temp = e.temp
  split <;> rfl

theorem mark_true_isInUse (h : v ∈ p.temps) :
    (p.mark v true).isInUse w = true ↔ p.isInUse w = true ∨ w = v := by
  rw [isInUse_iff, isInUse_iff, mark, List.mem_map]
  constructor
  · rintro ⟨e, he, h⟩
    split at h
    · rename_i hv
      right
      exact (congrArg PoolEntry.temp h).symm.trans hv
    · exact .inl (h ▸ he)
  · obtain ⟨e, he, hv⟩ := List.mem_map.mp h
    rintro (hw | rfl)
    · refine ⟨_, hw, ?_⟩
      split <;> rfl
    · refine ⟨e, he, ?_⟩
      rw [if_pos hv, ← hv]

theorem mark_false_isInUse : (p.mark v false).isInUse w = true ↔ p.isInUse w = true ∧ w ≠ v := by
  rw [isInUse_iff, isInUse_iff, mark, List.mem_map]
  constructor
  · rintro ⟨e, he, h⟩
    split at h
    · cases h
    · rename_i hv
      obtain rfl := h
      exact ⟨he, hv⟩
  · rintro ⟨hw, hne⟩
    exact ⟨_, hw, if_neg hne⟩

/-- A mark that a variable bears already changes nothing. -/
theorem mark_eq_self {b : Bool} (h : ∀ e ∈ p.entries, e.temp = v → e.inUse = b) :
    p.mark v b = p := by
  have hentries : (p.entries.map fun e => if e.temp = v then { e with inUse := b } else e) =
      p.entries.map id := by
    refine List.map_congr_left fun e he => ?_
    split
    · next hv => rw [← h e he hv, id]
    · rfl
  rw [mark, hentries, List.map_id]

theorem mark_false_of_not_isInUse (h : ¬p.isInUse v = true) : p.mark v false = p := by
  refine mark_eq_self fun e he hv => ?_
  obtain ⟨temp, inUse⟩ := e
  obtain rfl : temp = v := hv
  cases inUse with
  | false => rfl
  | true => exact absurd (isInUse_iff.mpr he) h

/-- The last mark of a variable counts. -/
theorem mark_mark (p : Pool) (v : Temp) (a b : Bool) : (p.mark v a).mark v b = p.mark v b := by
  simp only [mark, List.map_map]
  congr 1
  refine List.map_congr_left fun e _ => ?_
  simp only [Function.comp_apply]
  by_cases hv : e.temp = v
  · rw [if_pos hv, if_pos hv, if_pos hv]
  · rw [if_neg hv, if_neg hv]

theorem size_eq (p : Pool) : p.size = p.temps.length := (List.length_map _).symm

theorem Valid.mark (h : p.Valid) (v : Temp) (b : Bool) : (p.mark v b).Valid where
  nodup := by rw [temps_mark]; exact h.nodup
  numbered := by
    rw [size_eq, temps_mark, ← size_eq]
    exact h.numbered

/-- The variable that is made if there is none to hand out. -/
theorem Valid.name_ne_numbered (h : p.Valid) (hw : w ∈ p.temps) :
    w.name ≠ (Temp.numbered (p.size + 1) type).name := by
  intro hname
  obtain ⟨k, hk, hnumbered⟩ := h.numbered w hw
  have hsize : k = p.size + 1 := Temp.numbered_name_inj.mp (hnumbered.symm.trans hname)
  omega

theorem Valid.alloc (h : p.Valid) (type : String) : (p.alloc type).2.Valid := by
  rw [Pool.alloc]
  split
  · exact h.mark _ _
  · have hperm : Pool.temps ⟨Text.insertByKey (·.temp.name)
        ⟨Temp.numbered (p.size + 1) type, true⟩ p.entries⟩ |>.Perm
          (Temp.numbered (p.size + 1) type :: p.temps) :=
      (Text.insertByKey_perm _ _ _).map _
    refine ⟨?_, fun w hw => ?_⟩
    · rw [(hperm.map _).nodup_iff, List.map_cons, List.nodup_cons]
      refine ⟨fun hmem => ?_, h.nodup⟩
      obtain ⟨w, hw, hname⟩ := List.mem_map.mp hmem
      exact h.name_ne_numbered hw hname
    · rw [size_eq, hperm.length_eq, List.length_cons, ← size_eq]
      rcases List.mem_cons.mp (hperm.mem_iff.mp hw) with rfl | hw
      · exact ⟨_, Nat.le_refl _, rfl⟩
      · obtain ⟨k, hk, hname⟩ := h.numbered w hw
        exact ⟨k, by omega, hname⟩

theorem Valid.free (h : p.Valid) (hq : p.free v = .ok q) : q.Valid := by
  unfold Pool.free at hq
  split at hq
  · cases hq
    exact h.mark v false
  · cases hq

theorem alloc_type (p : Pool) (type : String) : (p.alloc type).1.type = type := by
  rw [Pool.alloc]
  split
  · rename_i v hv
    obtain ⟨e, he, rfl⟩ := Option.map_eq_some_iff.mp hv
    have hp := List.find?_some he
    rw [Bool.and_eq_true, beq_iff_eq] at hp
    exact hp.2
  · rfl

/-- At most the variable that is handed out is new. -/
theorem mem_temps_alloc :
    w ∈ (p.alloc type).2.temps ↔ w ∈ p.temps ∨ w = (p.alloc type).1 := by
  rw [Pool.alloc]
  split
  · rename_i v hv
    rw [temps_mark]
    refine ⟨.inl, ?_⟩
    rintro (hw | rfl)
    · exact hw
    · exact List.mem_map.mpr ⟨_, available?_mem hv, rfl⟩
  · rw [temps, ((Text.insertByKey_perm _ _ _).map _).mem_iff, List.map_cons, List.mem_cons, or_comm,
      temps]

/-- Exactly the variable that is handed out comes into use. -/
theorem alloc_isInUse :
    (p.alloc type).2.isInUse w = true ↔ p.isInUse w = true ∨ w = (p.alloc type).1 := by
  rw [Pool.alloc]
  split
  · rename_i v hv
    exact mark_true_isInUse (List.mem_map.mpr ⟨_, available?_mem hv, rfl⟩)
  · rw [isInUse_iff, isInUse_iff, (Text.insertByKey_perm _ _ _).mem_iff, List.mem_cons, or_comm]
    simp

/-- The variable that is handed out is a Go variable of its own. -/
theorem Valid.alloc_fresh (h : p.Valid) (hw : p.isInUse w = true) :
    w.name ≠ (p.alloc type).1.name := by
  rw [Pool.alloc]
  split
  · rename_i v hv
    intro hname
    have hnodup : (p.entries.map fun e => e.temp.name).Nodup := by
      have hn := h.nodup
      rwa [temps, List.map_map] at hn
    have heq := List.inj_on_of_nodup_map hnodup (isInUse_iff.mp hw) (available?_mem hv) hname
    cases heq
  · exact h.name_ne_numbered (mem_temps_of_isInUse hw)

/-- Exactly the variable that is given back goes out of use. -/
theorem free_isInUse (h : p.free v = .ok q) :
    q.isInUse w = true ↔ p.isInUse w = true ∧ w ≠ v := by
  unfold Pool.free at h
  split at h
  · cases h
    exact mark_false_isInUse
  · cases h

end Pool

/-! ### Scopes -/

namespace ScopeTree

variable {t u : ScopeTree} {id : Nat} {v w : Temp}

/-- A scratch variable is in use in a scope. -/
def InUse (t : ScopeTree) (id : Nat) (v : Temp) : Prop := (t.resources id).pool.isInUse v = true

/-- A scope that exists as well as its parent, with a valid pool. -/
structure Sound (t : ScopeTree) (id : Nat) : Prop where
  isSome : (t.scope? id).isSome
  parent : ∀ s p, t.scope? id = some s → s.parent = some p → (t.scope? p).isSome
  pool : (t.resources id).pool.Valid

theorem resources_setResources (t : ScopeTree) (id i : Nat) (r : Resources) :
    (t.setResources id r).resources i =
      if i = id ∧ (t.scope? id).isSome then r else t.resources i := by
  rw [resources, resources, scope?, scope?, scope?, setResources, List.getElem?_modify]
  by_cases hi : i = id
  · subst hi
    rcases t.scopes[i]? with _ | s <;> simp
  · have hne : id ≠ i := fun h => hi h.symm
    rcases t.scopes[i]? with _ | s <;> simp [hi, hne]

/-- A scope that does not exist has nothing in use. -/
theorem resources_of_not_isSome (h : ¬(t.scope? id).isSome) : t.resources id = {} := by
  rw [resources, Option.not_isSome_iff_eq_none.mp h]
  rfl

theorem resources_push (t : ScopeTree) (parent : Nat) (name : String) (kind : ScopeKind) (i : Nat) :
    (t.push parent name kind).2.resources i = t.resources i := by
  by_cases hi : i < t.scopes.length
  · rw [resources, resources, scope?, scope?, push, List.getElem?_append_left hi]
  · have hnone : ¬(t.scope? i).isSome := by
      rw [scope?_isSome_iff]
      exact hi
    rw [resources_of_not_isSome hnone, resources, scope?, push]
    by_cases hlast : i = t.scopes.length
    · subst hlast
      rw [List.getElem?_concat_length]
      rfl
    · rw [List.getElem?_eq_none (by rw [List.length_append, List.length_singleton]; omega)]
      rfl

/-- Entering a scope makes that scope and no other one. -/
theorem scope?_push_isSome {parent : Nat} {name : String} {kind : ScopeKind} {i : Nat} :
    ((t.push parent name kind).2.scope? i).isSome ↔
      (t.scope? i).isSome ∨ i = (t.push parent name kind).1 := by
  have hsize : (t.push parent name kind).2.size = t.size + 1 := List.length_append
  have hfst : (t.push parent name kind).1 = t.size := rfl
  rw [scope?_isSome_iff, scope?_isSome_iff, hsize, hfst]
  omega

/-- A scope that is entered has all its resources before it. -/
theorem resources_entered (t : ScopeTree) (parent : Nat) (name : String) (kind : ScopeKind) :
    (t.push parent name kind).2.resources (t.push parent name kind).1 = {} := by
  rw [resources_push, resources_of_not_isSome]
  rw [scope?_isSome_iff]
  exact Nat.lt_irrefl _

theorem free_ok (h : t.free id v = .ok u) :
    ∃ q, (t.resources id).pool.free v = .ok q ∧
      u = t.setResources id { t.resources id with pool := q } := by
  unfold free Resources.free at h
  cases hq : (t.resources id).pool.free v with
  | error e => simp [hq, Except.map] at h
  | ok q =>
    simp only [hq, Except.map, Except.ok.injEq] at h
    exact ⟨q, rfl, h.symm⟩

theorem GrowsTo.sound (hg : t.GrowsTo u) (h : t.Sound id) (hpool : (u.resources id).pool.Valid) :
    u.Sound id where
  isSome := hg.isSome h.isSome
  parent s' p hs' hp := by
    obtain ⟨s, hs⟩ := Option.isSome_iff_exists.mp h.isSome
    obtain ⟨s'', hs'', -, hparent⟩ := hg id s hs
    rw [hs', Option.some.injEq] at hs''
    subst hs''
    exact hg.isSome (h.parent s p hs (hparent ▸ hp))
  pool := hpool

theorem Sound.access_eq (h : t.Sound id) (hg : t.GrowsTo u) (x : String) :
    u.access id x = t.access id x := hg.access_eq h.isSome h.parent x

section Alloc

variable {type : String}

theorem growsTo_alloc (t : ScopeTree) (id : Nat) (type : String) :
    t.GrowsTo (t.alloc id type).2 := growsTo_treeRelation.alloc t id type

theorem Sound.alloc_pool (h : t.Sound id) :
    ((t.alloc id type).2.resources id).pool = ((t.resources id).pool.alloc type).2 := by
  have hset := resources_setResources t id id ((t.resources id).alloc type).2
  rw [if_pos ⟨rfl, h.isSome⟩] at hset
  exact congrArg Resources.pool hset

theorem Sound.alloc (h : t.Sound id) : (t.alloc id type).2.Sound id :=
  (growsTo_alloc t id type).sound h (h.alloc_pool ▸ h.pool.alloc type)

theorem Sound.alloc_inUse (h : t.Sound id) :
    (t.alloc id type).2.InUse id w ↔ t.InUse id w ∨ w = (t.alloc id type).1 := by
  rw [InUse, h.alloc_pool]
  exact Pool.alloc_isInUse

/-- A variable that is handed out differs by name from those in use in the scope. -/
theorem Sound.alloc_fresh (h : t.Sound id) (hw : t.InUse id w) :
    w.name ≠ (t.alloc id type).1.name :=
  h.pool.alloc_fresh hw

end Alloc

theorem Sound.free_pool (h : t.Sound id) (hu : t.free id v = .ok u) :
    (t.resources id).pool.free v = .ok (u.resources id).pool := by
  obtain ⟨q, hq, rfl⟩ := free_ok hu
  rw [hq, resources_setResources, if_pos ⟨rfl, h.isSome⟩]

theorem Sound.free (h : t.Sound id) (hu : t.free id v = .ok u) : u.Sound id :=
  (growsTo_treeRelation.free hu).sound h (h.pool.free (h.free_pool hu))

theorem Sound.free_inUse (h : t.Sound id) (hu : t.free id v = .ok u) :
    u.InUse id w ↔ t.InUse id w ∧ w ≠ v := Pool.free_isInUse (h.free_pool hu)

theorem Sound.intern (h : t.Sound id) (s : String) : (t.intern s).2.Sound id :=
  ⟨h.isSome, h.parent, h.pool⟩

/-- A scope that is entered from one that exists. -/
theorem Sound.entered {parent : Nat} (hparent : (t.scope? parent).isSome) (name : String)
    (kind : ScopeKind) : (t.push parent name kind).2.Sound (t.push parent name kind).1 := by
  obtain ⟨s, hs⟩ : ∃ s, (t.push parent name kind).2.scope? (t.push parent name kind).1 = some s ∧
      s.parent = some parent := by
    simp [ScopeTree.push, scope?, size]
  refine ⟨Option.isSome_iff_exists.mpr ⟨s, hs.1⟩, fun s' p hs' hp => ?_, ?_⟩
  · rw [hs.1, Option.some.injEq] at hs'
    rw [← hs', hs.2, Option.some.injEq] at hp
    exact hp ▸ (GrowsTo.push t parent name kind).isSome hparent
  · rw [resources_entered]
    exact ⟨List.nodup_nil, fun _ hv => absurd hv List.not_mem_nil⟩

/-- A tree that arises from the module by the changes that a unit can make to it. -/
inductive Reached : ScopeTree → Prop
  | ofOptions (o : Options) : Reached (.ofOptions o)
  | push {t : ScopeTree} (parent : Nat) (name : String) (kind : ScopeKind) :
    Reached t → (t.scope? parent).isSome → Reached (t.push parent name kind).2
  | alloc {t : ScopeTree} (id : Nat) (type : String) : Reached t → Reached (t.alloc id type).2
  | free {t u : ScopeTree} {id : Nat} {v : Temp} : Reached t → t.free id v = .ok u → Reached u
  | label {t : ScopeTree} (id : Nat) (isCheckpoint : Bool) :
    Reached t → Reached (t.label id isCheckpoint).2
  | openLoop {t : ScopeTree} (id : Nat) : Reached t → Reached (t.openLoop id).2
  | closeLoop {t : ScopeTree} (id : Nat) : Reached t → Reached (t.closeLoop id).2
  | addImport {t : ScopeTree} (path : String) : Reached t → Reached (t.addImport path).2
  | addNative {t : ScopeTree} (path : String) : Reached t → Reached (t.addNative path).2
  | intern {t : ScopeTree} (s : String) : Reached t → Reached (t.intern s).2

/-- A change of the resources of a scope that respects the validity of its pool. -/
theorem Sound.setResources (h : ∀ i, (t.scope? i).isSome → t.Sound i) {r : Resources}
    (hr : (t.scope? id).isSome → (t.resources id).pool.Valid → r.pool.Valid) (i : Nat)
    (hi : ((t.setResources id r).scope? i).isSome) : (t.setResources id r).Sound i := by
  have hi' : (t.scope? i).isSome := by
    rw [scope?_isSome_iff] at hi ⊢
    simpa [ScopeTree.setResources, size] using hi
  refine (GrowsTo.setResources t id r).sound (h i hi') ?_
  rw [resources_setResources]
  split
  · rename_i hid
    exact hr hid.2 (h id hid.2).pool
  · exact (h i hi').pool

theorem Sound.push (h : ∀ i, (t.scope? i).isSome → t.Sound i) {parent : Nat} {name : String}
    {kind : ScopeKind} (hparent : (t.scope? parent).isSome) (i : Nat)
    (hi : ((t.push parent name kind).2.scope? i).isSome) : (t.push parent name kind).2.Sound i := by
  rcases scope?_push_isSome.mp hi with hold | rfl
  · refine (GrowsTo.push t parent name kind).sound (h i hold) ?_
    rw [resources_push]
    exact (h i hold).pool
  · exact .entered hparent name kind

/-- Every scope of a tree that can be reached is sound. -/
theorem Reached.sound (h : t.Reached) : ∀ i, (t.scope? i).isSome → t.Sound i := by
  induction h with
  | ofOptions o =>
    intro i hi
    have hzero : i = 0 := Nat.lt_one_iff.mp (scope?_isSome_iff.mp hi)
    subst hzero
    refine ⟨rfl, fun s p hs hp => ?_, ⟨List.nodup_nil, fun _ hv => nomatch hv⟩⟩
    cases hs
    cases hp
  | push parent name kind _ hparent ih => exact Sound.push ih hparent
  | alloc id type _ ih => exact Sound.setResources ih fun _ hp => hp.alloc type
  | free _ hu ih =>
    obtain ⟨q, hq, rfl⟩ := free_ok hu
    exact Sound.setResources ih fun _ hp => hp.free hq
  | label id isCheckpoint _ ih =>
    cases isCheckpoint <;> exact Sound.setResources ih fun _ hp => hp
  | openLoop id _ ih => exact Sound.setResources ih fun _ hp => hp
  | closeLoop id _ ih => exact Sound.setResources ih fun _ hp => hp
  | addImport path _ ih => exact fun i hi => ⟨hi, (ih i hi).parent, (ih i hi).pool⟩
  | addNative path _ ih => exact fun i hi => ⟨hi, (ih i hi).parent, (ih i hi).pool⟩
  | intern s _ ih => exact fun i hi => ⟨hi, (ih i hi).parent, (ih i hi).pool⟩

end ScopeTree

end Goward
