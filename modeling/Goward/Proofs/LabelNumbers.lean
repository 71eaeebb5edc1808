import Mathlib.Tactic.SplitIfs
import Goward.Proofs.GotoProgram

/-!
# Labels of linear code

The labels that a piece of linear code contains are those that were given out while it was made,
each of them at most once. So every jump goes to the one place that its label marks.
-/

namespace Goward.Code

/-- The labels that stand in code, without those of nested functions and classes. -/
def Instr.labels (code : List Instr) : List Nat :=
  code.filterMap fun
    | .label n => some n
    | _ => none

namespace Instr

@[simp] theorem labels_append (a b : List Instr) : labels (a ++ b) = labels a ++ labels b :=
  List.filterMap_append

@[simp] theorem labels_nil : labels [] = [] := rfl

@[simp] theorem labels_label (n : Nat) (code : List Instr) :
    labels (.label n :: code) = n :: labels code := rfl

@[simp] theorem labels_goto (n : Nat) (code : List Instr) :
    labels (.goto n :: code) = labels code := rfl

@[simp] theorem labels_gotoUnless (cond : Temp) (n : Nat) (code : List Instr) :
    labels (.gotoUnless cond n :: code) = labels code := rfl

@[simp] theorem labels_next (item iterator : Temp) (n : Nat) (code : List Instr) :
    labels (.next item iterator n :: code) = labels code := rfl

@[simp] theorem labels_pushCheckpoint (n : Nat) (code : List Instr) :
    labels (.pushCheckpoint n :: code) = labels code := rfl

@[simp] theorem labels_ret (v : Option Value) (code : List Instr) :
    labels (.ret v :: code) = labels code := rfl

/-- A label that stands in code only once marks the code behind it. -/
theorem behind_eq {n : Nat} {a b : List Instr} (h : n ∉ labels a) :
    behind n (a ++ .label n :: b) = some b := by
  induction a with
  | nil => rw [List.nil_append, behind, if_pos rfl]
  | cons i rest ih =>
    cases i with
    | label m =>
      rw [labels_label, List.mem_cons, not_or] at h
      rw [List.cons_append, behind, if_neg (Ne.symm h.1)]
      exact ih h.2
    | _ =>
      rw [List.cons_append, behind]
      exact ih h

end Instr

/-- The labels in code are numbered from above `low` up to `high`, each at most once. -/
structure Numbered (low high : Nat) (code : List Instr) : Prop where
  le : low ≤ high
  count : ∀ n, (Instr.labels code).count n ≤ if low < n ∧ n ≤ high then 1 else 0

namespace Numbered

/-- Code without labels. -/
theorem plain {code : List Instr} (h : Instr.labels code = []) (n : Nat) : Numbered n n code := by
  refine ⟨Nat.le_refl n, fun m => ?_⟩
  rw [h]
  exact Nat.zero_le _

theorem append {low mid high : Nat} {a b : List Instr} (ha : Numbered low mid a)
    (hb : Numbered mid high b) : Numbered low high (a ++ b) := by
  have hle := ha.le
  have hle' := hb.le
  refine ⟨by omega, fun n => ?_⟩
  have hcount := ha.count n
  have hcount' := hb.count n
  rw [Instr.labels_append, List.count_append]
  split_ifs at * <;> omega

/-- Code that is numbered above `k` new labels, along with those labels, each at one place. -/
theorem enclose {low high : Nat} {inner code : List Instr} (k : Nat)
    (h : Numbered (low + k) high inner)
    (hcode : ∀ n, (Instr.labels code).count n =
      (Instr.labels inner).count n + if low < n ∧ n ≤ low + k then 1 else 0) :
    Numbered low high code := by
  have hle := h.le
  refine ⟨by omega, fun n => ?_⟩
  have hcount := h.count n
  rw [hcode]
  split_ifs at * <;> omega

/-- A jump to a label goes to where it stands. -/
theorem behind {low high n : Nat} {a b : List Instr}
    (h : Numbered low high (a ++ .label n :: b)) :
    Instr.behind n (a ++ .label n :: b) = some b := by
  apply Instr.behind_eq
  have hcount := h.count n
  rw [Instr.labels_append, Instr.labels_label, List.count_append, List.count_cons_self] at hcount
  rw [← List.count_eq_zero]
  split_ifs at hcount <;> omega

end Numbered

/-- Making a piece of code advances the labels: it leaves the open loops as they are and keeps the
checkpoints. -/
structure Advances (l : Labels) (code : List Instr) (l' : Labels) : Prop where
  numbered : Numbered l.count l'.count code
  checkpoints : l.checkpoints ⊆ l'.checkpoints
  loops : l'.loops = l.loops

namespace Advances

/-- Code without labels leaves the labels as they are. -/
theorem plain {code : List Instr} (h : Instr.labels code = []) (l : Labels) : Advances l code l :=
  ⟨.plain h _, fun _ h => h, rfl⟩

theorem trans {l m l' : Labels} {a b : List Instr} (ha : Advances l a m) (hb : Advances m b l') :
    Advances l (a ++ b) l' where
  numbered := ha.numbered.append hb.numbered
  checkpoints := fun n hn => hb.checkpoints (ha.checkpoints hn)
  loops := by rw [hb.loops, ha.loops]

theorem innermost {l l' : Labels} {code : List Instr} (h : Advances l code l') :
    l'.innermost? = l.innermost? := congrArg List.head? h.loops

/-- Closing a loop takes it away again. -/
theorem closed {l l' : Labels} {code : List Instr} (h : Advances l code l') :
    Advances l.closeLoop code l'.closeLoop where
  numbered := h.numbered
  checkpoints := h.checkpoints
  loops := congrArg List.tail h.loops

end Advances

namespace Step

theorem linearAll_append (a b : List Step) (l : Labels) :
    linearAll (a ++ b) l =
      ((linearAll a l).1 ++ (linearAll b (linearAll a l).2).1,
        (linearAll b (linearAll a l).2).2) := by
  induction a generalizing l with
  | nil => simp only [List.nil_append, linearAll]
  | cons s rest ih => simp only [List.cons_append, linearAll, ih, List.append_assoc]

theorem linearAll_advances {code : List Step}
    (h : ∀ s ∈ code, ∀ l, Advances l (s.linear l).1 (s.linear l).2) (l : Labels) :
    Advances l (linearAll code l).1 (linearAll code l).2 := by
  induction code generalizing l with
  | nil =>
    rw [linearAll]
    exact .plain rfl l
  | cons s rest ih =>
    rw [linearAll]
    exact (h s List.mem_cons_self l).trans (ih (fun s hs => h s (List.mem_cons_of_mem _ hs)) _)

theorem straight_advances {s : Step} (h : s.IsStraight) (l : Labels) :
    Advances l (s.linear l).1 (s.linear l).2 := by
  cases s with
  | action _ | function _ _ _ _ | classBody _ _ _ _ _ =>
    rw [linear]
    exact .plain rfl l
  | suspend v =>
    rw [linear]
    refine ⟨.enclose 1 (.plain Instr.labels_nil _) fun n => ?_,
      fun n hn => List.mem_append_left _ hn, rfl⟩
    simp [Labels.checkpoint, List.count_cons]
    grind
  | ret _ | breakLoop | continueLoop | branch _ _ _ _ | whileLoop _ _ _ _ | forLoop _ _ _ _ _ =>
    exact h.elim

theorem straightAll_advances {code : List Step} (h : ∀ s ∈ code, s.IsStraight) (l : Labels) :
    Advances l (linearAll code l).1 (linearAll code l).2 :=
  linearAll_advances (fun s hs => straight_advances (h s hs)) l

theorem loopJump_labels (label : Loop → Nat) (l : Labels) :
    Instr.labels (Instr.loopJump label l) = [] := by
  rw [Instr.loopJump]
  cases l.innermost? <;> rfl

theorem WellFormed.advances {inLoop : Bool} {s : Step} (h : s.WellFormed inLoop) (l : Labels) :
    Advances l (s.linear l).1 (s.linear l).2 := by
  -- In each case the parts are numbered above the labels that the step takes for itself.
  induction h generalizing l with
  | straight hs => exact straight_advances hs l
  | ret v =>
    rw [linear]
    exact .plain rfl l
  | breakLoop =>
    rw [linear]
    exact .plain (loopJump_labels _ l) l
  | continueLoop =>
    rw [linear]
    exact .plain (loopJump_labels _ l) l
  | @branch _ test body cond orelse htest _ _ ihBody ihElse =>
    have ht := straightAll_advances htest.straight
    have hb := linearAll_advances ihBody
    cases orelse with
    | none =>
      have all := (ht l.fresh.2).trans (hb _)
      rw [linear]
      refine ⟨.enclose 1 all.numbered fun n => ?_, all.checkpoints, all.loops⟩
      simp [Labels.fresh, List.count_cons]
      grind
    | some orelse =>
      have ho := linearAll_advances (ihElse orelse rfl)
      have all := (ht l.fresh.2.fresh.2).trans ((hb _).trans (ho _))
      rw [linear]
      refine ⟨.enclose 2 all.numbered fun n => ?_, all.checkpoints, all.loops⟩
      simp [Labels.fresh, List.count_cons]
      grind
  | @whileLoop _ test body cond orelse htest _ _ ihBody ihElse =>
    have ht := straightAll_advances htest.straight
    have hb := linearAll_advances ihBody
    cases orelse with
    | none =>
      have all := ((ht l.openLoop.2).trans (hb _)).closed
      rw [linear]
      refine ⟨.enclose 2 all.numbered fun n => ?_, all.checkpoints, all.loops⟩
      simp [Labels.openLoop, List.count_cons]
      grind
    | some orelse =>
      have ho := linearAll_advances (ihElse orelse rfl)
      have all := ((ht l.openLoop.2.fresh.2).trans (hb _)).closed.trans (ho _)
      rw [linear]
      refine ⟨.enclose 3 all.numbered fun n => ?_, all.checkpoints, all.loops⟩
      simp [Labels.openLoop, Labels.fresh, List.count_cons]
      grind
  | @forLoop _ iterator item bind body orelse hbind _ _ ihBody ihElse =>
    have hi := straightAll_advances hbind
    have hb := linearAll_advances ihBody
    cases orelse with
    | none =>
      have all := ((hi l.openLoop.2).trans (hb _)).closed
      rw [linear]
      refine ⟨.enclose 2 all.numbered fun n => ?_, all.checkpoints, all.loops⟩
      simp [Labels.openLoop, List.count_cons]
      grind
    | some orelse =>
      have ho := linearAll_advances (ihElse orelse rfl)
      have all := ((hi l.openLoop.2.fresh.2).trans (hb _)).closed.trans (ho _)
      rw [linear]
      refine ⟨.enclose 3 all.numbered fun n => ?_, all.checkpoints, all.loops⟩
      simp [Labels.openLoop, Labels.fresh, List.count_cons]
      grind

end Step

end Goward.Code
