import Goward.Proofs.LabelNumbers

/-!
# Code that is served by a pool

The scratch variables that code mentions, against those that are in use when it does. A pool follows
linear code instruction by instruction: where the code begins to use a variable the pool must hand
out that very one, and where it ceases to, the pool takes it back. Every other instruction is in
order only if all the variables that it mentions are in use. Structured code is served if its linear
code is, whatever the labels are.
-/

namespace Goward

open Goward.Code

/-- The scratch variables that an instruction mentions. A nested body mentions its own ones, which
are left out. -/
def Code.Instr.temps : Instr → List Temp
  | .action a => a.temps
  | .gotoUnless cond _ => [cond]
  | .next item iterator _ => [item, iterator]
  | .ret v => (v.map Value.temps).getD []
  | .function dst _ _ _ _ => [dst]
  | .classBody dst _ names _ _ _ => [dst, names]
  | .label _ | .goto _ | .pushCheckpoint _ => []

namespace Pool

/-- The pool after an instruction, if that is in order. The pool decides by itself which variable it
hands out, and the instruction must name that one. -/
def serve (p : Pool) : Instr → Option Pool
  | .action (.acquire v) => if (p.alloc v.type).1 = v then some (p.alloc v.type).2 else none
  | .action (.release v) => (p.free v).toOption
  | i => if i.temps.all p.isInUse then some p else none

/-- The pool after some instructions, if all of them are in order. -/
def serveAll (p : Pool) (code : List Instr) : Option Pool := code.foldlM serve p

variable {p q r : Pool} {a b code : List Instr} {i : Instr} {v : Temp}

@[simp] theorem serveAll_nil (p : Pool) : p.serveAll [] = some p := rfl

theorem serveAll_cons (p : Pool) (i : Instr) (code : List Instr) :
    p.serveAll (i :: code) = (p.serve i).bind (·.serveAll code) := rfl

theorem serveAll_append (p : Pool) (a b : List Instr) :
    p.serveAll (a ++ b) = (p.serveAll a).bind (·.serveAll b) := List.foldlM_append

theorem serveAll_single (p : Pool) (i : Instr) : p.serveAll [i] = p.serve i := by
  rw [serveAll_cons]
  exact Option.bind_fun_some (p.serve i)

theorem serveAll_trans (ha : p.serveAll a = some q) (hb : q.serveAll b = some r) :
    p.serveAll (a ++ b) = some r := by
  rw [serveAll_append, ha]
  exact hb

/-- An instruction that mentions variables in use only. -/
theorem serve_eq (hacquire : ∀ v, i ≠ .action (.acquire v))
    (hrelease : ∀ v, i ≠ .action (.release v))
    (h : ∀ v ∈ i.temps, p.isInUse v = true) : p.serve i = some p := by
  unfold serve
  split
  · exact absurd rfl (hacquire _)
  · exact absurd rfl (hrelease _)
  · exact if_pos (List.all_eq_true.mpr h)

/-- What a served instruction mentions is in use, and it changes nothing unless it begins or ceases
to use a variable. -/
theorem inUse_of_serve (h : p.serve i = some q) (hv : v ∈ i.temps) : p.isInUse v = true := by
  unfold serve at h
  split at h
  · cases hv
  · cases hv
  · split at h
    · rename_i hall
      exact List.all_eq_true.mp hall v hv
    · cases h

@[simp] theorem serve_label (p : Pool) (n : Nat) : p.serve (.label n) = some p :=
  serve_eq nofun nofun nofun

@[simp] theorem serve_goto (p : Pool) (n : Nat) : p.serve (.goto n) = some p :=
  serve_eq nofun nofun nofun

@[simp] theorem serve_pushCheckpoint (p : Pool) (n : Nat) :
    p.serve (.pushCheckpoint n) = some p := serve_eq nofun nofun nofun

theorem serve_gotoUnless {cond : Temp} (h : p.isInUse cond = true) (n : Nat) :
    p.serve (.gotoUnless cond n) = some p := by
  refine serve_eq nofun nofun fun v hv => ?_
  obtain rfl := List.mem_singleton.mp hv
  exact h

theorem serve_next {item iterator : Temp} (hitem : p.isInUse item = true)
    (hiterator : p.isInUse iterator = true) (n : Nat) :
    p.serve (.next item iterator n) = some p := by
  refine serve_eq nofun nofun fun v hv => ?_
  rcases List.mem_cons.mp hv with rfl | hv
  · exact hitem
  · obtain rfl := List.mem_singleton.mp hv
    exact hiterator

/-- What begins to be in use is what the pool hands out for its type. -/
theorem alloc_of_serve (h : p.serve (.action (.acquire v)) = some q) :
    (p.alloc v.type).1 = v := by
  rw [serve] at h
  split at h
  · assumption
  · cases h

/-- The pools before and after an instruction in the midst of code. -/
theorem serveAll_split {before after : List Instr}
    (h : p.serveAll (before ++ i :: after) = some q) :
    ∃ r s, p.serveAll before = some r ∧ r.serve i = some s ∧ s.serveAll after = some q := by
  rw [serveAll_append] at h
  obtain ⟨r, hbefore, hrest⟩ := Option.bind_eq_some_iff.mp h
  rw [serveAll_cons] at hrest
  obtain ⟨s, hserve, hafter⟩ := Option.bind_eq_some_iff.mp hrest
  exact ⟨r, s, hbefore, hserve, hafter⟩

end Pool

namespace Code

/-- A pool serves structured code, and becomes another one. -/
def Serves (p : Pool) (code : List Step) (q : Pool) : Prop :=
  ∀ l, p.serveAll (Step.linearAll code l).1 = some q

namespace Serves

variable {p q r s : Pool} {a b test bind body : List Step} {orelse : Option (List Step)}

theorem nil (p : Pool) : Serves p [] p := by
  intro l
  rw [Step.linearAll]
  exact p.serveAll_nil

theorem append (ha : Serves p a q) (hb : Serves q b r) : Serves p (a ++ b) r := by
  intro l
  rw [Step.linearAll_append]
  exact Pool.serveAll_trans (ha l) (hb _)

theorem single {o : Step} (h : ∀ l, p.serveAll (o.linear l).1 = some q) : Serves p [o] q := by
  intro l
  rw [Step.linearAll, Step.linearAll, List.append_nil]
  exact h l

theorem action {x : Action} (h : p.serve (.action x) = some q) : Serves p [.action x] q := by
  refine single fun l => ?_
  rw [Step.linear, Pool.serveAll_single]
  exact h

/-- A step that becomes a single instruction, which mentions variables in use only. -/
theorem instr {o : Step} {i : Instr} (hlinear : ∀ l, (o.linear l).1 = [i])
    (hserve : p.serve i = some p) : Serves p [o] p := by
  refine single fun l => ?_
  rw [hlinear, Pool.serveAll_single]
  exact hserve

theorem suspend {v : Value} (hv : ∀ w ∈ v.temps, p.isInUse w = true) :
    Serves p [.suspend v] p := by
  refine single fun l => ?_
  have hret : p.serve (.ret (some v)) = some p := Pool.serve_eq nofun nofun hv
  rw [Step.linear]
  simp [Pool.serveAll_cons, hret]

theorem loopJump (p : Pool) (label : Loop → Nat) (l : Labels) :
    p.serveAll (Instr.loopJump label l) = some p := by
  rw [Instr.loopJump]
  cases l.innermost? with
  | none => exact p.serveAll_nil
  | some loop => exact (p.serveAll_single _).trans (p.serve_goto _)

/-- The other side of a branch or a loop. If there is none the pool stays as it is. -/
def Else (p : Pool) (orelse : Option (List Step)) (q : Pool) : Prop := Serves p (orelse.getD []) q

theorem Else.none_eq (h : Else p none q) : p = q :=
  Option.some_inj.mp ((nil p {}).symm.trans (h {}))

theorem branch {cond : Temp} (ht : Serves p test q) (hcond : q.isInUse cond = true)
    (hb : Serves q body r) (ho : Else r orelse s) : Serves p [.branch test cond body orelse] s := by
  refine single fun l => ?_
  have hjump (n : Nat) : q.serveAll [.gotoUnless cond n] = some q :=
    (q.serveAll_single _).trans (Pool.serve_gotoUnless hcond n)
  cases orelse with
  | none =>
    obtain rfl := ho.none_eq
    rw [Step.linear]
    refine Pool.serveAll_trans
      (Pool.serveAll_trans (Pool.serveAll_trans (ht _) (hjump _)) (hb _)) ?_
    simp [Pool.serveAll_cons]
  | some orelse =>
    have ho : Serves r orelse s := ho
    rw [Step.linear]
    refine Pool.serveAll_trans (Pool.serveAll_trans (Pool.serveAll_trans
      (Pool.serveAll_trans (Pool.serveAll_trans (ht _) (hjump _)) (hb _)) ?_) (ho _)) ?_
    all_goals simp [Pool.serveAll_cons]

theorem whileLoop {cond : Temp} (ht : Serves p test q) (hcond : q.isInUse cond = true)
    (hb : Serves q body r) (ho : Else r orelse s) :
    Serves p [.whileLoop test cond body orelse] s := by
  refine single fun l => ?_
  have hjump (n : Nat) : q.serveAll [.gotoUnless cond n] = some q :=
    (q.serveAll_single _).trans (Pool.serve_gotoUnless hcond n)
  have hstart (n : Nat) : p.serveAll [.label n] = some p :=
    (p.serveAll_single _).trans (p.serve_label n)
  cases orelse with
  | none =>
    obtain rfl := ho.none_eq
    rw [Step.linear]
    refine Pool.serveAll_trans (Pool.serveAll_trans (Pool.serveAll_trans
      (Pool.serveAll_trans (hstart _) (ht _)) (hjump _)) (hb _)) ?_
    simp [Pool.serveAll_cons]
  | some orelse =>
    have ho : Serves r orelse s := ho
    rw [Step.linear]
    refine Pool.serveAll_trans (Pool.serveAll_trans (Pool.serveAll_trans (Pool.serveAll_trans
      (Pool.serveAll_trans (Pool.serveAll_trans (hstart _) (ht _)) (hjump _)) (hb _)) ?_) (ho _)) ?_
    all_goals simp [Pool.serveAll_cons]

theorem forLoop {iterator item : Temp} (hitem : p.isInUse item = true)
    (hiterator : p.isInUse iterator = true) (hi : Serves p bind q) (hb : Serves q body r)
    (ho : Else r orelse s) : Serves p [.forLoop iterator item bind body orelse] s := by
  refine single fun l => ?_
  have hstart (m n : Nat) : p.serveAll [.label m, .next item iterator n] = some p := by
    rw [Pool.serveAll_cons, Pool.serve_label, Option.bind_some, Pool.serveAll_single]
    exact Pool.serve_next hitem hiterator n
  cases orelse with
  | none =>
    obtain rfl := ho.none_eq
    rw [Step.linear]
    refine Pool.serveAll_trans
      (Pool.serveAll_trans (Pool.serveAll_trans (hstart _ _) (hi _)) (hb _)) ?_
    simp [Pool.serveAll_cons]
  | some orelse =>
    have ho : Serves r orelse s := ho
    rw [Step.linear]
    refine Pool.serveAll_trans (Pool.serveAll_trans (Pool.serveAll_trans (Pool.serveAll_trans
      (Pool.serveAll_trans (hstart _ _) (hi _)) (hb _)) ?_) (ho _)) ?_
    all_goals simp [Pool.serveAll_cons]

end Serves

/-! ### Steps at any depth -/

/-- The pieces of code that a step is made of. Nested bodies do not count. -/
def Step.parts : Step → List (List Step)
  | .branch test _ body orelse => test :: body :: orelse.toList
  | .whileLoop test _ body orelse => test :: body :: orelse.toList
  | .forLoop _ _ bind body orelse => bind :: body :: orelse.toList
  | .action _ | .suspend _ | .ret _ | .breakLoop | .continueLoop | .function _ _ _ _
  | .classBody _ _ _ _ _ => []

/-- A step occurs in code, at any depth of control flow. -/
inductive Step.Occurs (s : Step) : List Step → Prop
  | here {code : List Step} : s ∈ code → Occurs s code
  | inside {code part : List Step} {o : Step} :
    o ∈ code → part ∈ o.parts → Occurs s part → Occurs s code

namespace Step

theorem occurs_nil {s : Step} : ¬s.Occurs [] := by
  intro h
  cases h with
  | here h => cases h
  | inside h _ _ => cases h

theorem occurs_append {s : Step} {a b : List Step} :
    s.Occurs (a ++ b) ↔ s.Occurs a ∨ s.Occurs b := by
  constructor
  · intro h
    cases h with
    | here hmem => exact (List.mem_append.mp hmem).imp .here .here
    | inside hmem hpart hin =>
      exact (List.mem_append.mp hmem).imp (.inside · hpart hin) (.inside · hpart hin)
  · rintro (h | h)
    · cases h with
      | here hmem => exact .here (List.mem_append_left b hmem)
      | inside hmem hpart hin => exact .inside (List.mem_append_left b hmem) hpart hin
    · cases h with
      | here hmem => exact .here (List.mem_append_right a hmem)
      | inside hmem hpart hin => exact .inside (List.mem_append_right a hmem) hpart hin

theorem occurs_single {s o : Step} : s.Occurs [o] ↔ s = o ∨ ∃ part ∈ o.parts, s.Occurs part := by
  constructor
  · intro h
    cases h with
    | here hmem => exact .inl (List.mem_singleton.mp hmem)
    | inside hmem hpart hin =>
      obtain rfl := List.mem_singleton.mp hmem
      exact .inr ⟨_, hpart, hin⟩
  · rintro (rfl | ⟨part, hpart, hin⟩)
    · exact .here List.mem_cons_self
    · exact .inside List.mem_cons_self hpart hin

end Step

/-- Code neither begins nor ceases to use a scratch variable. -/
def Spares (v : Temp) (code : List Step) : Prop :=
  ¬Step.Occurs (.action (.acquire v)) code ∧ ¬Step.Occurs (.action (.release v)) code

namespace Spares

variable {v : Temp} {a b : List Step}

theorem nil (v : Temp) : Spares v [] := ⟨Step.occurs_nil, Step.occurs_nil⟩

theorem append (ha : Spares v a) (hb : Spares v b) : Spares v (a ++ b) :=
  ⟨fun h => (Step.occurs_append.mp h).elim ha.1 hb.1,
    fun h => (Step.occurs_append.mp h).elim ha.2 hb.2⟩

/-- A step that is no change of use, and whose parts spare the variable. -/
theorem single {s : Step} (hacquire : s ≠ .action (.acquire v))
    (hrelease : s ≠ .action (.release v))
    (hparts : ∀ part ∈ s.parts, Spares v part) : Spares v [s] := by
  constructor
  · intro h
    rcases Step.occurs_single.mp h with rfl | ⟨part, hpart, hin⟩
    · exact hacquire rfl
    · exact (hparts part hpart).1 hin
  · intro h
    rcases Step.occurs_single.mp h with rfl | ⟨part, hpart, hin⟩
    · exact hrelease rfl
    · exact (hparts part hpart).2 hin

end Spares

end Code

end Goward
