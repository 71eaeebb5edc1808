import Goward.Lowering.Stmt
import Goward.Proofs.Evaluation

/-!
# Assignment to several targets

The meaning of an assignment: its value is evaluated once and goes to the targets one after another.
If the value is that of a name, looking the name up again for each target gives the same, unless a
target is unpacked that stores into the name while other targets are still to come. Then there are
objects for which it makes a difference.
-/

namespace Goward

open Goward.Build Goward.Code

variable {V : Type}

/-- What an assignment changes: the slots, and the requests so far. -/
structure Memory (V : Type) where
  slots : String → V
  trace : List (Request V)

namespace Memory

def ask (m : Memory V) (q : Request V) : Memory V := { m with trace := m.trace ++ [q] }

def setSlot (m : Memory V) (x : String) (v : V) : Memory V :=
  { m with slots := Function.update m.slots x v }

end Memory

/-- What a state shows of itself outside of the scratch variables. -/
def Code.State.memory (σ : State V) : Memory V := ⟨σ.slots, σ.trace⟩

/-- How the names of a scope are read, and where stores to them land. -/
structure Names where
  access : String → ScopeTree.Access
  home : String → Option ScopeTree.Home

/-- The names as seen from a scope. -/
def ScopeTree.names (t : ScopeTree) (id : Nat) : Names := ⟨t.access id, t.home? id⟩

namespace Expr

mutual

/-- Assigns a value to a target. What is no target is left alone. -/
def assign (R : Runtime V) (n : Names) : Expr → V → Memory V → Memory V
  | .name x, v, m =>
    match n.home x with
    | none => m
    | some .globals => m.ask (.setItem .globals x v)
    | some .classBody => m.ask (.setItem .classBody x v)
    | some .slot => m.setSlot x v
  | .attr obj key, v, m =>
    let o := obj.eval R n.access m.slots m.trace
    { m with trace := o.2 ++ [.setAttr o.1 key v] }
  | .tuple elts, v, m =>
    let q := Request.tie elts.length v
    assignItems R n elts (R.answer (m.trace ++ [q])).element 0 (m.ask q)
  | .list elts, v, m =>
    let q := Request.tie elts.length v
    assignItems R n elts (R.answer (m.trace ++ [q])).element 0 (m.ask q)
  | .str _, _, m | .int _, _, m | .call _ _, _, m | .binop _ _ _, _, m | .yield _, _, m => m

/-- Assigns the elements of an array, from an index on, to targets. -/
def assignItems (R : Runtime V) (n : Names) :
    List Expr → (Nat → V) → Nat → Memory V → Memory V
  | [], _, _, m => m
  | e :: rest, elements, index, m =>
    assignItems R n rest elements (index + 1) (assign R n e (elements index) m)

end

/-- Assigns to several targets, one after another; the value is looked up for each of them. -/
def assignEach (R : Runtime V) (n : Names) (targets : List Expr) (value : Memory V → V)
    (m : Memory V) : Memory V :=
  targets.foldl (fun m e => assign R n e (value m) m) m

/-- Evaluates an expression once and assigns the value to each of some targets. -/
def assignAll (R : Runtime V) (n : Names) (targets : List Expr) (value : Expr) (m : Memory V) :
    Memory V :=
  let v := value.eval R n.access m.slots m.trace
  assignEach R n targets (fun _ => v.1) ⟨m.slots, v.2⟩

/-- The names that a target binds when it is unpacked. -/
def unpackedNames : Expr → List String
  | .tuple elts => boundNamesAll elts
  | .list elts => boundNamesAll elts
  | _ => []

end Expr

/-- The value of an assignment is read from the slot of a name, and a target other than the last one
unpacks into this name. -/
def Clobbered (n : Names) (targets : List Expr) (value : Expr) : Prop :=
  ∃ x, value = .name x ∧ n.access x = .slot ∧ ∃ e ∈ targets.dropLast, x ∈ e.unpackedNames

/-- A target all of whose names have a place where stores to them land. -/
inductive Expr.Assignable (n : Names) : Expr → Prop
  | name {x : String} {home : ScopeTree.Home} : n.home x = some home → Assignable n (.name x)
  | attr (obj : Expr) (key : String) : Assignable n (.attr obj key)
  | tuple {elts : List Expr} : (∀ e ∈ elts, Assignable n e) → Assignable n (.tuple elts)
  | list {elts : List Expr} : (∀ e ∈ elts, Assignable n e) → Assignable n (.list elts)

section Pure

variable {R : Runtime V} {n : Names} {x : String}

mutual

theorem Expr.assign_slots_of_not_mem : (e : Expr) → (v : V) → (m : Memory V) → x ∉ e.boundNames →
    (e.assign R n v m).slots x = m.slots x
  | .name y, v, m, hx => by
    have hne : x ≠ y := by simpa [Expr.boundNames] using hx
    rw [Expr.assign]
    split
    · rfl
    · rfl
    · rfl
    · exact Function.update_of_ne hne ..
  | .attr _ _, _, _, _ => rfl
  | .tuple elts, v, m, hx => Expr.assignItems_slots_of_not_mem elts _ 0 (m.ask _) hx
  | .list elts, v, m, hx => Expr.assignItems_slots_of_not_mem elts _ 0 (m.ask _) hx
  | .str _, _, _, _ | .int _, _, _, _ | .call _ _, _, _, _ | .binop _ _ _, _, _, _
  | .yield _, _, _, _ => rfl

theorem Expr.assignItems_slots_of_not_mem : (es : List Expr) → (elements : Nat → V) →
    (index : Nat) → (m : Memory V) → x ∉ Expr.boundNamesAll es →
      (Expr.assignItems R n es elements index m).slots x = m.slots x
  | [], _, _, _, _ => rfl
  | e :: rest, elements, index, m, hx => by
    rw [Expr.boundNamesAll, List.mem_append, not_or] at hx
    rw [Expr.assignItems, Expr.assignItems_slots_of_not_mem rest elements _ _ hx.2,
      Expr.assign_slots_of_not_mem e _ m hx.1]

end

/-- The content of a slot survives its own assignment to a target that does not unpack into it. -/
theorem Expr.assign_slots_self (e : Expr) (m : Memory V) (hx : x ∉ e.unpackedNames) :
    (e.assign R n (m.slots x) m).slots x = m.slots x := by
  cases e with
  | name y =>
    rw [Expr.assign]
    split
    · rfl
    · rfl
    · rfl
    · by_cases hy : x = y
      · subst hy
        exact Function.update_self ..
      · exact Function.update_of_ne hy ..
  | tuple elts => exact Expr.assign_slots_of_not_mem (.tuple elts) _ m hx
  | list elts => exact Expr.assign_slots_of_not_mem (.list elts) _ m hx
  | attr _ _ | str _ | int _ | call _ _ | binop _ _ _ | yield _ => rfl

/-- If no target but the last one unpacks into a slot, the slot can be read for every target. -/
theorem Expr.assignEach_slot (targets : List Expr) :
    ∀ m : Memory V, (∀ e ∈ targets.dropLast, x ∉ e.unpackedNames) →
      Expr.assignEach R n targets (·.slots x) m =
        Expr.assignEach R n targets (fun _ => m.slots x) m := by
  induction targets with
  | nil => exact fun _ _ => rfl
  | cons e rest ih =>
    intro m hx
    cases rest with
    | nil => rfl
    | cons e' rest =>
      rw [List.dropLast_cons_cons, List.forall_mem_cons] at hx
      have hrest := ih (e.assign R n (m.slots x) m) hx.2
      rw [e.assign_slots_self m hx.1] at hrest
      exact hrest

end Pure

/-! ### When it may not -/

namespace Memory

/-- So many requests lead from one memory to another. -/
def Adds (k : Nat) (m m' : Memory V) : Prop :=
  ∃ more, more.length = k ∧ m'.trace = m.trace ++ more

namespace Adds

variable {k l : Nat} {m m' m'' : Memory V}

theorem of_trace_eq (h : m'.trace = m.trace) : Adds 0 m m' :=
  ⟨[], rfl, h.trans (List.append_nil m.trace).symm⟩

theorem ask (m : Memory V) (q : Request V) : Adds 1 m (m.ask q) := ⟨[q], rfl, rfl⟩

theorem trans (h : Adds k m m') (h' : Adds l m' m'') : Adds (k + l) m m'' := by
  obtain ⟨more, hk, hmore⟩ := h
  obtain ⟨rest, hl, hrest⟩ := h'
  refine ⟨more ++ rest, by rw [List.length_append, hk, hl], ?_⟩
  rw [hrest, hmore, List.append_assoc]

theorem length_eq (h : Adds k m m') : m'.trace.length = m.trace.length + k := by
  obtain ⟨more, hk, hmore⟩ := h
  rw [hmore, List.length_append, hk]

end Adds

end Memory

section Adds

variable {R : Runtime V} {n : Names}

mutual

/-- How many requests an assignment makes does not depend on the value or the state. -/
theorem Expr.assign_adds : (e : Expr) → ∃ k, ∀ v (m : Memory V), m.Adds k (e.assign R n v m)
  | .name x => by
    cases hx : n.home x with
    | none => exact ⟨0, fun v m => .of_trace_eq (by simp only [Expr.assign, hx])⟩
    | some home =>
      cases home with
      | globals =>
        exact ⟨1, fun v m => by simpa only [Expr.assign, hx] using .ask m (.setItem .globals x v)⟩
      | classBody =>
        exact ⟨1, fun v m => by simpa only [Expr.assign, hx] using .ask m (.setItem .classBody x v)⟩
      | slot => exact ⟨0, fun v m => .of_trace_eq (by simp only [Expr.assign, hx, Memory.setSlot])⟩
  | .attr obj key => by
    obtain ⟨k, hk⟩ := obj.eval_makes R n.access
    refine ⟨k + 1, fun v m => ?_⟩
    let o := obj.eval R n.access m.slots m.trace
    have ho : m.Adds k ⟨m.slots, o.2⟩ := hk m.slots m.trace
    exact ho.trans (.ask _ (.setAttr o.1 key v))
  | .tuple elts => by
    obtain ⟨k, hk⟩ := Expr.assignItems_adds elts 0
    exact ⟨1 + k, fun v m => (Memory.Adds.ask m _).trans (hk _ _)⟩
  | .list elts => by
    obtain ⟨k, hk⟩ := Expr.assignItems_adds elts 0
    exact ⟨1 + k, fun v m => (Memory.Adds.ask m _).trans (hk _ _)⟩
  | .str _ | .int _ | .call _ _ | .binop _ _ _ | .yield _ => ⟨0, fun _ _ => .of_trace_eq rfl⟩

theorem Expr.assignItems_adds : (es : List Expr) → (index : Nat) →
    ∃ k, ∀ elements (m : Memory V), m.Adds k (Expr.assignItems R n es elements index m)
  | [], _ => ⟨0, fun _ _ => .of_trace_eq rfl⟩
  | e :: rest, index => by
    obtain ⟨k, hk⟩ := e.assign_adds
    obtain ⟨l, hl⟩ := Expr.assignItems_adds rest (index + 1)
    exact ⟨k + l, fun elements m => (hk _ m).trans (hl _ _)⟩

end

theorem Expr.assignEach_adds (targets : List Expr) :
    ∃ k, ∀ value (m : Memory V), m.Adds k (Expr.assignEach R n targets value m) := by
  induction targets with
  | nil => exact ⟨0, fun _ _ => .of_trace_eq rfl⟩
  | cons e rest ih =>
    obtain ⟨k, hk⟩ := e.assign_adds
    obtain ⟨l, hl⟩ := ih
    exact ⟨k + l, fun value m => (hk _ m).trans (hl value _)⟩

/-- Unpacking different values after as many requests leads to different requests. -/
theorem Expr.unpack_ne {es : List Expr} {elements elements' : Nat → V} {v v' : V} {size : Nat}
    {m m' : Memory V} (hlength : m.trace.length = m'.trace.length) (hv : v ≠ v') :
    Expr.assignItems R n es elements 0 (m.ask (.tie size v)) ≠
      Expr.assignItems R n es elements' 0 (m'.ask (.tie size v')) := by
  intro h
  obtain ⟨k, hk⟩ := Expr.assignItems_adds (R := R) (n := n) es 0
  obtain ⟨more, -, hmore⟩ := hk elements (m.ask (.tie size v))
  obtain ⟨more', -, hmore'⟩ := hk elements' (m'.ask (.tie size v'))
  rw [h, hmore'] at hmore
  have hasked := List.append_inj_left hmore (by simp [Memory.ask, hlength])
  have hrequest := List.append_inj_right' hasked rfl
  rw [List.cons.injEq, Request.tie.injEq] at hrequest
  exact hv hrequest.1.2.symm

/-- Assigning different values after as many requests makes a difference. -/
theorem Expr.assign_ne {e : Expr} (he : e.Assignable n) {v v' : V} {m m' : Memory V}
    (hlength : m.trace.length = m'.trace.length) (hv : v ≠ v') :
    e.assign R n v m ≠ e.assign R n v' m' := by
  cases he with
  | @name x home hx =>
    intro h
    simp only [Expr.assign, hx] at h
    cases home with
    | globals =>
      have hrequest := List.append_inj_right' (congrArg Memory.trace h) rfl
      rw [List.cons.injEq, Request.setItem.injEq] at hrequest
      exact hv hrequest.1.2.2
    | classBody =>
      have hrequest := List.append_inj_right' (congrArg Memory.trace h) rfl
      rw [List.cons.injEq, Request.setItem.injEq] at hrequest
      exact hv hrequest.1.2.2
    | slot =>
      have hslot := congrFun (congrArg Memory.slots h) x
      simp only [Memory.setSlot, Function.update_self] at hslot
      exact hv hslot
  | attr obj key =>
    intro h
    have hrequest := List.append_inj_right' (congrArg Memory.trace h) rfl
    rw [List.cons.injEq, Request.setAttr.injEq] at hrequest
    exact hv hrequest.1.2.2
  | tuple _ => exact Expr.unpack_ne hlength hv
  | list _ => exact Expr.unpack_ne hlength hv

end Adds

/-- A runtime to which everything is false. -/
def Code.Runtime.falsy : Runtime Bool where
  str _ := false
  int _ := false
  none := false
  unbound := false
  blank := false
  verbatim _ := false
  answer _ := ⟨false, fun _ => false⟩

/-- A state in which every slot is true. -/
def Code.State.truthy : State Bool := ⟨fun _ => ⟨false, fun _ => false⟩, fun _ => true, false, []⟩

section Falsy

variable {n : Names} {x : String}

mutual

theorem Expr.assign_falsy (hx : n.home x = some .slot) : (e : Expr) → (m : Memory Bool) →
    x ∈ e.boundNames ∨ m.slots x = false → (e.assign .falsy n false m).slots x = false
  | .name y, m, h => by
    by_cases hy : x = y
    · subst hy
      simp only [Expr.assign, hx, Memory.setSlot, Function.update_self]
    · have hm : m.slots x = false := h.resolve_left fun hmem => hy (List.mem_singleton.mp hmem)
      rw [Expr.assign_slots_of_not_mem (.name y) _ m fun hmem => hy (List.mem_singleton.mp hmem),
        hm]
  | .tuple elts, m, h => Expr.assignItems_falsy hx elts 0 (m.ask _) h
  | .list elts, m, h => Expr.assignItems_falsy hx elts 0 (m.ask _) h
  | .attr _ _, _, h => h.resolve_left List.not_mem_nil
  | .str _, _, h | .int _, _, h | .call _ _, _, h | .binop _ _ _, _, h | .yield _, _, h =>
    h.resolve_left List.not_mem_nil

theorem Expr.assignItems_falsy (hx : n.home x = some .slot) : (es : List Expr) → (index : Nat) →
    (m : Memory Bool) → x ∈ Expr.boundNamesAll es ∨ m.slots x = false →
      (Expr.assignItems .falsy n es (fun _ => false) index m).slots x = false
  | [], _, _, h => h.resolve_left List.not_mem_nil
  | e :: rest, index, m, h => by
    apply Expr.assignItems_falsy hx rest
    rw [Expr.boundNamesAll, List.mem_append] at h
    rcases h with (h | h) | h
    · exact .inr (Expr.assign_falsy hx e m (.inl h))
    · exact .inl h
    · exact .inr (Expr.assign_falsy hx e m (.inr h))

end

/-- Unpacking clears a slot, whatever is unpacked. -/
theorem Expr.assign_falsy_of_unpacked (hx : n.home x = some .slot) {e : Expr}
    (he : x ∈ e.unpackedNames) (v : Bool) (m : Memory Bool) :
    (e.assign .falsy n v m).slots x = false := by
  cases e with
  | tuple elts => exact Expr.assignItems_falsy hx elts 0 (m.ask _) (.inl he)
  | list elts => exact Expr.assignItems_falsy hx elts 0 (m.ask _) (.inl he)
  | name _ | attr _ _ | str _ | int _ | call _ _ | binop _ _ _ | yield _ =>
    exact absurd he List.not_mem_nil

theorem Expr.assignEach_falsy (hx : n.home x = some .slot) (targets : List Expr) :
    ∀ m, (∃ e ∈ targets, x ∈ e.unpackedNames) ∨ m.slots x = false →
      (Expr.assignEach .falsy n targets (·.slots x) m).slots x = false := by
  induction targets with
  | nil =>
    rintro m (⟨e, he, -⟩ | h)
    · cases he
    · exact h
  | cons e rest ih =>
    intro m h
    apply ih
    by_cases hm : m.slots x = false
    · right
      show (e.assign .falsy n (m.slots x) m).slots x = false
      rw [hm]
      exact e.assign_falsy hx m (.inr hm)
    · obtain ⟨e', he', hmem⟩ := h.resolve_right hm
      rcases List.mem_cons.mp he' with rfl | he'
      · exact .inr (Expr.assign_falsy_of_unpacked hx hmem _ m)
      · exact .inl ⟨e', he', hmem⟩

/-- If a target before the last one unpacks into a slot, reading the slot again for the last one
makes a difference. -/
theorem Expr.assignEach_slot_ne (hx : n.home x = some .slot) {targets : List Expr}
    (hassignable : ∀ e ∈ targets, e.Assignable n)
    (hunpacked : ∃ e ∈ targets.dropLast, x ∈ e.unpackedNames) {m : Memory Bool}
    (hm : m.slots x = true) :
    Expr.assignEach .falsy n targets (·.slots x) m ≠
      Expr.assignEach .falsy n targets (fun _ => m.slots x) m := by
  have hne : targets ≠ [] := by
    rintro rfl
    obtain ⟨e, he, -⟩ := hunpacked
    cases he
  have hlast := List.dropLast_append_getLast hne
  have hread := Expr.assignEach_falsy hx targets.dropLast m (.inl hunpacked)
  obtain ⟨k, hk⟩ := Expr.assignEach_adds (R := .falsy) (n := n) targets.dropLast
  have hlength := (hk (·.slots x) m).length_eq.trans (hk (fun _ => m.slots x) m).length_eq.symm
  rw [← hlast, Expr.assignEach, Expr.assignEach, List.foldl_append, List.foldl_append]
  refine Expr.assign_ne (hassignable _ (List.getLast_mem hne)) hlength ?_
  rw [Expr.assignEach] at hread
  rw [hread, hm]
  exact Bool.false_ne_true

end Falsy

end Goward
