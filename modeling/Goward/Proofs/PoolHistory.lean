import Mathlib.Order.Bounds.Defs
import Goward.Proofs.Balance
import Goward.Proofs.Transcripts

/-!
# Histories of pools

What a pool holds after any history of requests, and what it hands out next. The variables that it
made are those that the history hands out, numbered by when that happened first, and at any time each
of them is either free or in use. No variable is made that is not needed: of every type there are as
many as were in use at one time.
-/

namespace Goward

/-- The scratch variable that an answer hands out. -/
def Granted.temp? : Granted → Option Temp
  | temp v => some v
  | freed | refused _ | label _ | loop _ | closed _ => none

namespace ResourceHistory

/-- The scratch variables that were handed out, one for each time. -/
def handedOut (h : ResourceHistory) : List Temp := h.filterMap (·.2.temp?)

/-- The scratch variables that were made, in the order in which they were handed out first. -/
def made (h : ResourceHistory) : List Temp := h.handedOut.eraseDups

variable {h : ResourceHistory} {taken : ResourceOp × Granted} {v : Temp}

theorem mem_made : v ∈ h.made ↔ v ∈ h.handedOut := List.mem_eraseDups

/-- What was made stays, in the same order. -/
theorem made_prefix (h later : ResourceHistory) : h.made <+: made (h ++ later) := by
  have hout : handedOut (h ++ later) = h.handedOut ++ later.handedOut := List.filterMap_append
  rw [made, made, hout, List.eraseDups_append]
  exact List.prefix_append _ _

theorem made_concat_of_none (ht : taken.2.temp? = none) : made (h ++ [taken]) = h.made := by
  rw [made, handedOut, List.filterMap_append, List.filterMap_cons, ht, List.filterMap_nil,
    List.append_nil, made, handedOut]

theorem made_concat_of_some (ht : taken.2.temp? = some v) :
    made (h ++ [taken]) = if v ∈ h.made then h.made else h.made ++ [v] := by
  have hout : handedOut (h ++ [taken]) = h.handedOut ++ [v] := by
    rw [handedOut, List.filterMap_append, List.filterMap_cons, ht, List.filterMap_nil, handedOut]
  rw [made, hout, List.eraseDups_append]
  by_cases hv : v ∈ h.handedOut
  · have hnone : [v].removeAll h.handedOut = [] := by simp [List.removeAll, hv]
    rw [if_pos (mem_made.mpr hv), hnone, List.eraseDups_nil, List.append_nil, made]
  · have hsome : [v].removeAll h.handedOut = [v] := by simp [List.removeAll, hv]
    rw [if_neg (mem_made.not.mpr hv), hsome, made]
    rfl

end ResourceHistory

namespace Pool

/-- The scratch variables that are not in use. -/
def spare (p : Pool) : Multiset Temp := ((p.entries.filter (!·.inUse)).map (·.temp) : List Temp)

variable {p q : Pool} {v w : Temp} {type : String} {made : List Temp}

theorem mem_spare : v ∈ p.spare ↔ ⟨v, false⟩ ∈ p.entries := by
  rw [spare, Multiset.mem_coe, List.mem_map]
  constructor
  · rintro ⟨⟨temp, inUse⟩, he, rfl⟩
    obtain ⟨hmem, hfree⟩ := List.mem_filter.mp he
    obtain rfl : inUse = false := by simpa using hfree
    exact hmem
  · intro h
    exact ⟨⟨v, false⟩, List.mem_filter.mpr ⟨h, rfl⟩, rfl⟩

/-- Every variable is in use or not. -/
theorem spare_add_held (p : Pool) : p.spare + p.held = p.temps := by
  rw [Multiset.add_comm, held, spare, Multiset.coe_add, Multiset.coe_eq_coe, ← List.map_append]
  exact (List.filter_append_perm _ _).map _

theorem Valid.not_mem_held (h : p.Valid) (hv : v ∈ p.spare) : v ∉ p.held := by
  have hnodup : (p.spare + p.held).Nodup := by
    rw [spare_add_held]
    exact Multiset.coe_nodup.mpr (h.nodup.of_map _)
  exact Multiset.disjoint_left.mp (Multiset.nodup_add.mp hnodup).2.2 hv

theorem Valid.mem_spare_iff (h : p.Valid) : v ∈ p.spare ↔ v ∈ p.temps ∧ v ∉ p.held := by
  have htemps : v ∈ p.temps ↔ v ∈ p.spare ∨ v ∈ p.held := by
    rw [← Multiset.mem_add, spare_add_held, Multiset.mem_coe]
  constructor
  · exact fun hv => ⟨htemps.mpr (.inl hv), h.not_mem_held hv⟩
  · rintro ⟨hv, hnot⟩
    exact (htemps.mp hv).resolve_right hnot

theorem available?_eq_none_iff : p.available? type = none ↔ ∀ v ∈ p.spare, v.type ≠ type := by
  rw [available?, Option.map_eq_none_iff, List.find?_eq_none]
  constructor
  · intro h v hv htype
    exact h ⟨v, false⟩ (mem_spare.mp hv) (by simp [htype])
  · rintro h ⟨v, inUse⟩ he hp
    obtain ⟨hfree, htype⟩ : inUse = false ∧ v.type = type := by simpa using hp
    subst hfree
    exact h v (mem_spare.mpr he) htype

/-- The pool has its variables in the order of their names. -/
def InOrder (p : Pool) : Prop := Text.Ascending (·.temp.name) p.entries

/-- The first free variable of a type is the one with the least name. -/
theorem InOrder.available? (h : p.InOrder) (hv : p.available? type = some v) :
    v ∈ p.spare ∧ v.type = type ∧
      ∀ w ∈ p.spare, w.type = type → w ≠ v → v.name < w.name := by
  obtain ⟨e, he, rfl⟩ := Option.map_eq_some_iff.mp hv
  obtain ⟨hp, before, later, hsplit, hbefore⟩ := List.find?_eq_some_iff_append.mp he
  obtain ⟨temp, inUse⟩ := e
  obtain ⟨rfl, htype⟩ : inUse = false ∧ temp.type = type := by simpa using hp
  have hmem : (⟨temp, false⟩ : PoolEntry) ∈ p.entries := by simp [hsplit]
  refine ⟨mem_spare.mpr hmem, htype, fun w hw hwtype hne => ?_⟩
  have hwmem := mem_spare.mp hw
  rw [hsplit, List.mem_append, List.mem_cons] at hwmem
  rcases hwmem with hin | heq | hin
  · exact absurd (hbefore _ hin) (by simp [hwtype])
  · exact absurd (congrArg PoolEntry.temp heq) hne
  · rw [InOrder, Text.Ascending, hsplit, List.map_append, List.map_cons] at h
    have hlater := (List.pairwise_cons.mp (List.pairwise_append.mp h).2.1).1
    exact hlater _ (List.mem_map_of_mem hin)

theorem inOrder_iff : p.InOrder ↔ Text.Ascending (·.name) p.temps := by
  rw [InOrder, Text.Ascending, Text.Ascending, temps, List.map_map]
  rfl

/-- The pool holds the given variables and no others, and they are numbered. -/
structure Records (p : Pool) (made : List Temp) : Prop where
  perm : p.temps.Perm made
  numbered : ∀ i v, made[i]? = some v → v = Temp.numbered (i + 1) v.type
  inOrder : p.InOrder

namespace Records

theorem new : Records {} [] where
  perm := .refl _
  numbered i v hv := by simp at hv
  inOrder := .nil

theorem size_eq (h : p.Records made) : p.size = made.length := by
  rw [Pool.size_eq, h.perm.length_eq]

theorem valid (h : p.Records made) : p.Valid where
  nodup := (inOrder_iff.mp h.inOrder).imp ne_of_lt
  numbered v hv := by
    obtain ⟨i, hi⟩ := List.mem_iff_getElem?.mp (h.perm.mem_iff.mp hv)
    obtain ⟨hlt, -⟩ := List.getElem?_eq_some_iff.mp hi
    have hsize := h.size_eq
    exact ⟨i + 1, by omega, congrArg Temp.name (h.numbered i v hi)⟩

theorem mark (h : p.Records made) (v : Temp) (b : Bool) : (p.mark v b).Records made where
  perm := by
    rw [temps_mark]
    exact h.perm
  numbered := h.numbered
  inOrder := by
    rw [inOrder_iff, temps_mark, ← inOrder_iff]
    exact h.inOrder

/-- A variable that is handed out was made before, or is made as the next one. -/
theorem alloc (h : p.Records made) (type : String) : (p.alloc type).2.Records
    (if (p.alloc type).1 ∈ made then made else made ++ [(p.alloc type).1]) := by
  rw [Pool.alloc]
  split
  · next v hv =>
    have hmem : v ∈ made := h.perm.mem_iff.mp (List.mem_map.mpr ⟨_, available?_mem hv, rfl⟩)
    rw [if_pos hmem]
    exact h.mark v true
  · have hsize := h.size_eq
    have hnew : ∀ w ∈ made, w.name ≠ (Temp.numbered (p.size + 1) type).name :=
      fun w hw => h.valid.name_ne_numbered (h.perm.mem_iff.mpr hw)
    rw [if_neg fun hmem => hnew _ hmem rfl]
    refine ⟨?_, fun i v hi => ?_, h.inOrder.insertByKey fun e he => ?_⟩
    · have hinsert := (Text.insertByKey_perm (·.temp.name)
        (⟨Temp.numbered (p.size + 1) type, true⟩ : PoolEntry) p.entries).map (·.temp)
      exact hinsert.trans ((h.perm.cons _).trans (List.perm_append_singleton _ _).symm)
    · rcases Nat.lt_or_ge i made.length with hlt | hge
      · rw [List.getElem?_append_left hlt] at hi
        exact h.numbered i v hi
      · rw [List.getElem?_append_right hge, List.getElem?_singleton] at hi
        split at hi
        · have hlast : i = p.size := by omega
          cases hi
          rw [hlast]
          rfl
        · cases hi
    · exact hnew _ (h.perm.mem_iff.mp (List.mem_map_of_mem he))

theorem free (h : p.Records made) (hq : p.free v = .ok q) : q.Records made := by
  unfold Pool.free at hq
  split at hq
  · cases hq
    exact h.mark v false
  · cases hq

end Records

end Pool

/-- After any requests the pool holds the variables that the history made. -/
theorem Resources.records (ops : List ResourceOp) :
    (stateAfter grant {} ops).pool.Records (ResourceHistory.made (transcript grant {} ops)) := by
  induction ops using List.reverseRecOn with
  | nil => exact .new
  | append_singleton ops op ih =>
    rw [stateAfter_concat, transcript_concat]
    generalize stateAfter Resources.grant {} ops = r at ih ⊢
    cases op with
    | alloc type =>
      rw [ResourceHistory.made_concat_of_some rfl]
      exact ih.alloc type
    | free v =>
      have hnone : ((r.grant (.free v)).1).temp? = none := by
        rw [grant]
        split <;> rfl
      rw [ResourceHistory.made_concat_of_none hnone, grant]
      cases hfree : r.pool.free v with
      | ok q =>
        simp only [Resources.free, hfree, Except.map]
        exact ih.free hfree
      | error e =>
        simp only [Resources.free, hfree, Except.map]
        exact ih
    | label isCheckpoint =>
      rw [ResourceHistory.made_concat_of_none rfl]
      exact ih
    | openLoop | closeLoop =>
      rw [ResourceHistory.made_concat_of_none rfl]
      exact ih

/-! ### What is handed out next -/

namespace Pool

variable {p q : Pool} {v w : Temp} {type : String} {made : List Temp}

theorem alloc_of_available? (h : p.available? type = some v) :
    p.alloc type = (v, p.mark v true) := by
  rw [alloc, h]

namespace Records

/-- A free variable of the type is handed out if there is one, the one with the least name first. -/
theorem alloc_reused (h : p.Records made) (hv : v ∈ p.spare) (htype : v.type = type) :
    (p.alloc type).1 ∈ p.spare ∧
      ∀ w ∈ p.spare, w.type = type → w ≠ (p.alloc type).1 → (p.alloc type).1.name < w.name := by
  cases havail : p.available? type with
  | none => exact absurd htype (available?_eq_none_iff.mp havail v hv)
  | some u =>
    obtain ⟨hmem, -, hleast⟩ := h.inOrder.available? havail
    rw [alloc_of_available? havail]
    exact ⟨hmem, hleast⟩

/-- A new variable is handed out if none of the type is free. -/
theorem alloc_renewed (h : p.Records made) (hnone : ∀ v ∈ p.spare, v.type ≠ type) :
    (p.alloc type).1 = Temp.numbered (made.length + 1) type := by
  rw [Pool.alloc, available?_eq_none_iff.mpr hnone, h.size_eq]

end Records

/-- A pool is made up of the variables that a history hands out. -/
structure PartitionedBy (p : Pool) (h : ResourceHistory) : Prop where
  /-- No variable is both free and in use. -/
  disjoint : ∀ v ∈ p.spare, v ∉ p.held
  /-- The free variables and those in use are the ones that were made. -/
  union : p.spare + p.held = h.made
  /-- Every name stands for one variable. -/
  distinct : (h.made.map (·.name)).Nodup
  /-- The names are numbered from 1 in the order in which the variables were made. -/
  numbered : ∀ i v, h.made[i]? = some v → v = Temp.numbered (i + 1) v.type
  /-- A request for a variable is always answered with one of the type that it asks for. -/
  typed : ∀ type g, (.alloc type, g) ∈ h → ∃ v, g = .temp v ∧ v.type = type
  /-- A name that is handed out twice is handed out with the same type. -/
  identity : ∀ v ∈ h.handedOut, ∀ w ∈ h.handedOut, v.name = w.name → v.type = w.type
  /-- The variables that were made are declared, in the order of the bytes of their names. -/
  declared : p.temps.Perm h.made ∧
    (p.temps.map fun v => Text.bytes v.name.toList).Pairwise (· < ·)
  /-- What is handed out next is not in use and has the type that is asked for. -/
  next : ∀ type, (p.alloc type).1 ∉ p.held ∧ (p.alloc type).1.type = type
  /-- It is the free variable of the type whose name comes first, -/
  reused : ∀ type, (∃ v ∈ p.spare, v.type = type) → (p.alloc type).1 ∈ p.spare ∧
    ∀ w ∈ p.spare, w.type = type → w ≠ (p.alloc type).1 →
      Text.bytes (p.alloc type).1.name.toList < Text.bytes w.name.toList
  /-- or a new one, with the next number, if none is free. -/
  renewed : ∀ type, (∀ v ∈ p.spare, v.type ≠ type) →
    (p.alloc type).1 = Temp.numbered (h.made.length + 1) type

end Pool

/-- The pool of scratch variables is a partition with fixed identities. Whatever new resources are
asked for, and whether it is granted or not, each variable that was handed out is either free or in
use, with the name that it was made with, by which it is numbered, and the type that it was made for;
and a request is served from the free variables of its type as long as there is one. -/
theorem pool_partitioned (ops : List ResourceOp) :
    (stateAfter Resources.grant {} ops).pool.PartitionedBy (transcript Resources.grant {} ops) := by
  have hrecords := Resources.records ops
  have hvalid := hrecords.valid
  have hdistinct : ((ResourceHistory.made (transcript Resources.grant {} ops)).map (·.name)).Nodup :=
    (hrecords.perm.map _).nodup_iff.mp hvalid.nodup
  refine ⟨fun v hv => hvalid.not_mem_held hv, ?_, hdistinct, hrecords.numbered, fun type g hg => ?_,
    fun v hv w hw hname => ?_, ⟨hrecords.perm, (Pool.inOrder_iff.mp hrecords.inOrder).bytes⟩,
    fun type => ⟨hvalid.alloc_not_held type, Pool.alloc_type _ type⟩, fun type hspare => ?_,
    fun type hnone => hrecords.alloc_renewed hnone⟩
  · rw [Pool.spare_add_held]
    exact Multiset.coe_eq_coe.mpr hrecords.perm
  · obtain ⟨before, hbefore⟩ := exists_of_mem_transcript hg
    exact ⟨_, hbefore, Pool.alloc_type _ type⟩
  · rw [← ResourceHistory.mem_made] at hv hw
    exact congrArg Temp.type (List.inj_on_of_nodup_map hdistinct hv hw hname)
  · obtain ⟨v, hv, htype⟩ := hspare
    obtain ⟨hmem, hleast⟩ := hrecords.alloc_reused hv htype
    exact ⟨hmem, fun w hw hwtype hne => (Text.lt_iff_bytes_lt _ _).mp (hleast w hw hwtype hne)⟩

/-- The order of names is not that of their numbers from the thousandth one on. -/
example : (Temp.numbered 1000 "").name < (Temp.numbered 101 "").name := by decide

namespace Pool

variable {p q : Pool} {v w : Temp} {type : String} {made : List Temp}

/-- How many variables of a type the pool has made. -/
def madeOf (p : Pool) (type : String) : Nat := p.temps.countP (·.type = type)

/-- How many variables of a type are in use. -/
def heldOf (p : Pool) (type : String) : Nat := p.held.countP (·.type = type)

theorem heldOf_le_madeOf (p : Pool) (type : String) : p.heldOf type ≤ p.madeOf type := by
  rw [heldOf, madeOf, ← Multiset.coe_countP, ← p.spare_add_held, Multiset.countP_add]
  exact Nat.le_add_left _ _

/-- All variables of a type are in use if none of them is free. -/
theorem heldOf_eq_madeOf (h : ∀ v ∈ p.spare, v.type ≠ type) : p.heldOf type = p.madeOf type := by
  rw [heldOf, madeOf, ← Multiset.coe_countP, ← p.spare_add_held, Multiset.countP_add,
    Multiset.countP_eq_zero.mpr h, Nat.zero_add]

/-- A pool makes a variable only if all variables of its type come to be in use. -/
theorem Valid.madeOf_alloc (h : p.Valid) (type t : String) :
    (p.alloc type).2.madeOf t = p.madeOf t ∨
      (p.alloc type).2.heldOf t = (p.alloc type).2.madeOf t := by
  cases havail : p.available? type with
  | some v =>
    left
    rw [alloc_of_available? havail, madeOf, temps_mark, madeOf]
  | none =>
    by_cases ht : t = type
    · right
      subst ht
      refine heldOf_eq_madeOf fun v hv htype => ?_
      obtain ⟨hmem, hnot⟩ := (h.alloc t).mem_spare_iff.mp hv
      rw [h.held_alloc, Multiset.mem_cons, not_or] at hnot
      have hspare : v ∈ p.spare :=
        h.mem_spare_iff.mpr ⟨(mem_temps_alloc.mp hmem).resolve_right hnot.1, hnot.2⟩
      exact available?_eq_none_iff.mp havail v hspare htype
    · left
      have hperm : (p.alloc type).2.temps.Perm (Temp.numbered (p.size + 1) type :: p.temps) := by
        rw [Pool.alloc, havail]
        exact (Text.insertByKey_perm _ _ _).map _
      rw [madeOf, madeOf, hperm.countP_eq, List.countP_cons_of_neg]
      simp [Temp.numbered, Ne.symm ht]

theorem madeOf_free (hq : p.free v = .ok q) (t : String) : q.madeOf t = p.madeOf t := by
  unfold free at hq
  split at hq
  · cases hq
    rw [madeOf, temps_mark, madeOf]
  · cases hq

/-- The free variable of its type whose name comes first is handed out. -/
theorem Records.alloc_eq (h : p.Records made) (hv : v ∈ p.spare)
    (hleast : ∀ w ∈ p.spare, w.type = v.type → w ≠ v → v.name < w.name) :
    p.alloc v.type = (v, p.mark v true) := by
  cases havail : p.available? v.type with
  | none => exact absurd rfl (available?_eq_none_iff.mp havail v hv)
  | some u =>
    obtain ⟨hu, htype, hfirst⟩ := h.inOrder.available? havail
    have heq : u = v := by
      by_contra hne
      exact lt_asymm (hleast u hu htype hne) (hfirst v hv rfl (Ne.symm hne))
    rw [alloc_of_available? havail, heq]

theorem Valid.mark_true_of_isInUse (h : p.Valid) (hv : p.isInUse v = true) : p.mark v true = p := by
  refine mark_eq_self fun e he htemp => ?_
  obtain ⟨temp, inUse⟩ := e
  obtain rfl : temp = v := htemp
  cases inUse with
  | false => exact absurd (mem_held.mpr hv) (h.not_mem_held (mem_spare.mpr he))
  | true => rfl

/-- A variable that is given back at once is handed out again, and the pool is as it was then. -/
theorem Records.alloc_free_alloc (h : p.Records made) (type : String) :
    ∃ q, (p.alloc type).2.free (p.alloc type).1 = .ok q ∧ q.alloc type = p.alloc type := by
  have halloc := h.alloc type
  have hleast : ∀ w ∈ p.spare, w.type = type → w ≠ (p.alloc type).1 →
      (p.alloc type).1.name < w.name :=
    fun w hw htype => (h.alloc_reused hw htype).2 w hw htype
  have htype : (p.alloc type).1.type = type := alloc_type p type
  have hused : (p.alloc type).2.isInUse (p.alloc type).1 = true := alloc_isInUse.mpr (.inr rfl)
  have hfree := halloc.mark (p.alloc type).1 false
  -- Free are now the variables that were free before, along with the one that was given back.
  have hspare (w : Temp) : w ∈ ((p.alloc type).2.mark (p.alloc type).1 false).spare ↔
      w ∈ p.spare ∨ w = (p.alloc type).1 := by
    rw [hfree.valid.mem_spare_iff, temps_mark, mem_temps_alloc, mem_held, mark_false_isInUse,
      alloc_isInUse, h.valid.mem_spare_iff, mem_held]
    by_cases hw : w = (p.alloc type).1 <;> simp [hw]
  have hagain := hfree.alloc_eq ((hspare _).mpr (.inr rfl)) fun w hw hwtype hne =>
    hleast w (((hspare w).mp hw).resolve_right hne) (hwtype.trans htype) hne
  refine ⟨(p.alloc type).2.mark (p.alloc type).1 false, if_pos hused, ?_⟩
  rw [htype, mark_mark, halloc.valid.mark_true_of_isInUse hused] at hagain
  exact hagain

end Pool

namespace Resources

variable {ops : List ResourceOp}

/-- A request makes a variable of a type only if all variables of that type come to be in use. -/
theorem madeOf_grant {r : Resources} (h : r.pool.Valid) (op : ResourceOp) (type : String) :
    (r.grant op).2.pool.madeOf type = r.pool.madeOf type ∨
      (r.grant op).2.pool.heldOf type = (r.grant op).2.pool.madeOf type := by
  cases op with
  | alloc t => exact h.madeOf_alloc t type
  | free v =>
    left
    rw [grant]
    cases hfree : r.pool.free v with
    | ok q =>
      simp only [Resources.free, hfree, Except.map]
      exact Pool.madeOf_free hfree type
    | error e => simp only [Resources.free, hfree, Except.map]
  | label isCheckpoint | openLoop | closeLoop => exact .inl rfl

/-- No variable that was made is ever given up. -/
theorem madeOf_mono (before more : List ResourceOp) (type : String) :
    (stateAfter Resources.grant {} before).pool.madeOf type ≤
      (stateAfter Resources.grant {} (before ++ more)).pool.madeOf type := by
  have hmade (ops : List ResourceOp) : (stateAfter Resources.grant {} ops).pool.madeOf type =
      (ResourceHistory.made (transcript grant {} ops)).countP (·.type = type) :=
    (records ops).perm.countP_eq _
  rw [hmade, hmade, transcript_append]
  exact (ResourceHistory.made_prefix _ _).sublist.countP_le

/-- The variables of a type that were made were all in use at one time. -/
theorem exists_heldOf_eq (ops : List ResourceOp) (type : String) :
    ∃ before, before <+: ops ∧ (stateAfter Resources.grant {} before).pool.heldOf type =
      (stateAfter Resources.grant {} ops).pool.madeOf type := by
  induction ops using List.reverseRecOn with
  | nil => exact ⟨[], List.prefix_rfl, rfl⟩
  | append_singleton ops op ih =>
    have hstep := madeOf_grant (records ops).valid op type
    rw [← stateAfter_concat] at hstep
    rcases hstep with hsame | hfull
    · obtain ⟨before, hbefore, heq⟩ := ih
      exact ⟨before, hbefore.trans (List.prefix_append _ _), heq.trans hsame.symm⟩
    · exact ⟨ops ++ [op], List.prefix_rfl, hfull⟩

end Resources

/-- The pool is minimal and gives back what it took. Whatever new resources are asked for, of every
type there are as many variables as there were in use at the time when the most were. And whatever
was asked for, a variable that is handed out and given back at once is handed out again to the next
request for its type, and the resources are as they were when it was handed out first. -/
theorem pool_minimal :
    (∀ (ops : List ResourceOp) (type : String),
      IsGreatest {n | ∃ before, before <+: ops ∧
          (stateAfter Resources.grant {} before).pool.heldOf type = n}
        ((stateAfter Resources.grant {} ops).pool.madeOf type)) ∧
    ∀ (ops : List ResourceOp) (type : String),
      ∃ r, ((stateAfter Resources.grant {} ops).alloc type).2.free
          ((stateAfter Resources.grant {} ops).alloc type).1 = .ok r ∧
        r.alloc type = (stateAfter Resources.grant {} ops).alloc type := by
  refine ⟨fun ops type => ⟨Resources.exists_heldOf_eq ops type, ?_⟩, fun ops type => ?_⟩
  · rintro n ⟨before, ⟨more, rfl⟩, rfl⟩
    exact (Pool.heldOf_le_madeOf _ type).trans (Resources.madeOf_mono before more type)
  · obtain ⟨q, hfree, hagain⟩ := (Resources.records ops).alloc_free_alloc type
    refine ⟨{ stateAfter Resources.grant {} ops with pool := q }, ?_, ?_⟩
    · simp only [Resources.free, Resources.alloc, hfree, Except.map]
    · simp only [Resources.alloc, hagain]

end Goward
