import Goward.Proofs.Requests
import Goward.Proofs.Serving

/-!
# Flat code

The single steps of structured code against the other views of it. They occur in the code, those of a
nested body are among the ones at any depth, and the instructions of linear code that do more than
pass control on are theirs, in the same order.
-/

namespace Goward.Code

/-- Whether an instruction only passes control on. -/
def Instr.isControl : Instr → Bool
  | label _ | goto _ | gotoUnless _ _ | next _ _ _ | pushCheckpoint _ => true
  | action _ | ret _ | function _ _ _ _ _ | classBody _ _ _ _ _ _ => false

/-- The instructions that do more than pass control on. -/
def Instr.plain (code : List Instr) : List Instr := code.filter (!·.isControl)

@[simp] theorem Instr.plain_nil : plain [] = [] := rfl

@[simp] theorem Instr.plain_append (a b : List Instr) : plain (a ++ b) = plain a ++ plain b :=
  List.filter_append a b

@[simp] theorem Instr.plain_label (n : Nat) (code : List Instr) :
    plain (.label n :: code) = plain code := rfl

@[simp] theorem Instr.plain_goto (n : Nat) (code : List Instr) :
    plain (.goto n :: code) = plain code := rfl

@[simp] theorem Instr.plain_gotoUnless (cond : Temp) (n : Nat) (code : List Instr) :
    plain (.gotoUnless cond n :: code) = plain code := rfl

@[simp] theorem Instr.plain_next (item iterator : Temp) (n : Nat) (code : List Instr) :
    plain (.next item iterator n :: code) = plain code := rfl

namespace Step

/-- The instruction of a single step that does more than pass control on. -/
def instr? : Step → Option Instr
  | action a => some (.action a)
  | suspend v => some (.ret (some v))
  | ret v => some (.ret v)
  | function dst header temps body =>
    let b := linearAll body {}
    some (.function dst header temps b.2.checkpoints b.1)
  | classBody dst name names temps body =>
    let b := linearAll body {}
    some (.classBody dst name names temps b.2.checkpoints b.1)
  | breakLoop | continueLoop | branch _ _ _ _ | whileLoop _ _ _ _ | forLoop _ _ _ _ _ => none

theorem plain_loopJump (label : Loop → Nat) (l : Labels) :
    Instr.plain (Instr.loopJump label l) = [] := by
  rw [Instr.loopJump]
  cases l.innermost? <;> rfl

mutual

theorem plain_linear : (s : Step) → (l : Labels) →
    Instr.plain (s.linear l).1 = (s.flat false).filterMap instr?
  | action _, _ | suspend _, _ | ret _, _ | function _ _ _ _, _ | classBody _ _ _ _ _, _ => by
    simp [linear, flat, instr?, Instr.plain, Instr.isControl]
  | breakLoop, l | continueLoop, l => plain_loopJump _ l
  | branch test cond body none, l | whileLoop test cond body none, l
  | forLoop cond _ test body none, l => by
    simp [linear, flat, plain_linearAll]
  | branch test cond body (some orelse), l | whileLoop test cond body (some orelse), l
  | forLoop cond _ test body (some orelse), l => by
    simp [linear, flat, plain_linearAll]

/-- Linear code holds the instructions of the single steps, in order. -/
theorem plain_linearAll : (code : List Step) → (l : Labels) →
    Instr.plain (linearAll code l).1 = (flatAll false code).filterMap instr?
  | [], _ => by
    rw [linearAll, flatAll]
    rfl
  | s :: rest, l => by
    rw [linearAll, flatAll, Instr.plain_append, plain_linear s, plain_linearAll rest,
      List.filterMap_append]

end

mutual

/-- The single steps of a step are itself or occur in its parts. -/
theorem occurs_of_mem_flat {s : Step} : (o : Step) → s ∈ o.flat false → s.Occurs [o]
  | action _ | suspend _ | ret _ | breakLoop | continueLoop => fun h =>
      .here (List.mem_singleton.mpr (List.mem_singleton.mp h))
  | function _ _ _ _ | classBody _ _ _ _ _ => fun h => by
    simp only [flat, Bool.false_eq_true, if_false, List.mem_singleton] at h
    exact .here (List.mem_singleton.mpr h)
  | branch test _ body none | whileLoop test _ body none | forLoop _ _ test body none => fun h => by
    rcases List.mem_append.mp h with h | h
    · exact .inside List.mem_cons_self List.mem_cons_self (occurs_of_mem_flatAll test h)
    · exact .inside List.mem_cons_self (List.mem_cons_of_mem _ List.mem_cons_self)
        (occurs_of_mem_flatAll body h)
  | branch test _ body (some orelse) | whileLoop test _ body (some orelse)
  | forLoop _ _ test body (some orelse) => fun h => by
    rcases List.mem_append.mp h with h | h
    · rcases List.mem_append.mp h with h | h
      · exact .inside List.mem_cons_self List.mem_cons_self (occurs_of_mem_flatAll test h)
      · exact .inside List.mem_cons_self (List.mem_cons_of_mem _ List.mem_cons_self)
          (occurs_of_mem_flatAll body h)
    · exact .inside List.mem_cons_self (List.mem_cons_of_mem _ (List.mem_cons_of_mem _
        List.mem_cons_self)) (occurs_of_mem_flatAll orelse h)

theorem occurs_of_mem_flatAll {s : Step} :
    (code : List Step) → s ∈ flatAll false code → s.Occurs code
  | [] => fun h => nomatch h
  | o :: rest => fun h => occurs_append (a := [o]).mpr ((List.mem_append.mp h).imp
      (occurs_of_mem_flat o) (occurs_of_mem_flatAll rest))

end

mutual

/-- What a single step of a step holds at any depth is held by the whole at some depth. -/
theorem flat_subset {s : Step} : (o : Step) → s ∈ o.flat false → s.flat true ⊆ o.flat true
  | action _ | suspend _ | ret _ | breakLoop | continueLoop => fun h => by
    obtain rfl := List.mem_singleton.mp h
    exact List.Subset.refl _
  | function _ _ _ _ | classBody _ _ _ _ _ => fun h => by
    simp only [flat, Bool.false_eq_true, if_false, List.mem_singleton] at h
    exact h ▸ List.Subset.refl _
  | branch test _ body none | whileLoop test _ body none | forLoop _ _ test body none => fun h x hx =>
      List.mem_append.mpr ((List.mem_append.mp h).imp (fun h => flatAll_subset test h hx)
        fun h => flatAll_subset body h hx)
  | branch test _ body (some orelse) | whileLoop test _ body (some orelse)
  | forLoop _ _ test body (some orelse) => fun h x hx =>
      List.mem_append.mpr ((List.mem_append.mp h).imp
        (fun h => List.mem_append.mpr ((List.mem_append.mp h).imp
          (fun h => flatAll_subset test h hx) fun h => flatAll_subset body h hx))
        fun h => flatAll_subset orelse h hx)

theorem flatAll_subset {s : Step} :
    (code : List Step) → s ∈ flatAll false code → s.flat true ⊆ flatAll true code
  | [] => fun h => nomatch h
  | o :: rest => fun h _ hx => List.mem_append.mpr ((List.mem_append.mp h).imp
      (fun h => flat_subset o h hx) fun h => flatAll_subset rest h hx)

end

mutual

theorem mem_flat_deep {s : Step} : (o : Step) → s ∈ o.flat false → s ∈ o.flat true
  | action _ | suspend _ | ret _ | breakLoop | continueLoop => id
  | function _ _ _ _ | classBody _ _ _ _ _ => fun h => by
    simp only [flat, Bool.false_eq_true, if_false, List.mem_singleton] at h
    rw [h]
    exact List.mem_cons_self
  | branch test _ body none | whileLoop test _ body none | forLoop _ _ test body none => fun h =>
      List.mem_append.mpr ((List.mem_append.mp h).imp (mem_flatAll_deep test)
        (mem_flatAll_deep body))
  | branch test _ body (some orelse) | whileLoop test _ body (some orelse)
  | forLoop _ _ test body (some orelse) => fun h =>
      List.mem_append.mpr ((List.mem_append.mp h).imp
        (fun h => List.mem_append.mpr ((List.mem_append.mp h).imp (mem_flatAll_deep test)
          (mem_flatAll_deep body))) (mem_flatAll_deep orelse))

theorem mem_flatAll_deep {s : Step} :
    (code : List Step) → s ∈ flatAll false code → s ∈ flatAll true code
  | [] => fun h => nomatch h
  | o :: rest => fun h => List.mem_append.mpr ((List.mem_append.mp h).imp (mem_flat_deep o)
      (mem_flatAll_deep rest))

end

/-- What code mentions by itself it mentions at some depth. -/
theorem mentionsOf_subset (code : List Step) : mentionsOf false code ⊆ mentionsOf true code := by
  intro m hm
  obtain ⟨s, hs, hm⟩ := List.mem_flatMap.mp hm
  exact List.mem_flatMap.mpr ⟨s, mem_flatAll_deep code hs, hm⟩

end Step

end Goward.Code
