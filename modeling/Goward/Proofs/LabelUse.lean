import Mathlib.Data.List.Nodup
import Mathlib.Data.List.Perm.Subperm
import Goward.Proofs.LabelNumbers
import Goward.Proofs.Rendering

/-!
# Use of labels

The labels of a body and the jumps to them. A label that a branch or a loop takes for itself is
pending until the code that jumps to it and the place that it marks are both put down; when the code
of the body is complete nothing is pending any more but the labels of a loop around it. So every
jump has a place to go to, and no label is put down that no jump or dispatch names.
-/

namespace Goward

/-- The labels of the innermost open loop. -/
def Labels.exits (l : Labels) : List Nat :=
  l.innermost?.elim [] fun loop => [loop.start, loop.stop]

/-- The checkpoints ascend, and are labels that were given out. -/
structure Labels.Ordered (l : Labels) : Prop where
  ascending : l.checkpoints.Pairwise (· < ·)
  le : ∀ n ∈ l.checkpoints, n ≤ l.count

theorem Labels.insertAscending_of_lt {n : Nat} {xs : List Nat} (h : ∀ m ∈ xs, m < n) :
    insertAscending n xs = xs ++ [n] := by
  induction xs with
  | nil => rfl
  | cons m rest ih =>
    obtain ⟨hm, hrest⟩ := List.forall_mem_cons.mp h
    rw [insertAscending, if_neg (Nat.lt_asymm hm), if_neg (Nat.ne_of_gt hm), ih hrest,
      List.cons_append]

namespace Labels.Ordered

theorem fresh {l : Labels} (h : l.Ordered) : l.fresh.2.Ordered :=
  ⟨h.ascending, fun n hn => Nat.le_succ_of_le (h.le n hn)⟩

theorem openLoop {l : Labels} (h : l.Ordered) : l.openLoop.2.Ordered :=
  ⟨h.ascending, fun n hn => Nat.le_add_right_of_le (h.le n hn)⟩

theorem closeLoop {l : Labels} (h : l.Ordered) : l.closeLoop.Ordered := ⟨h.ascending, h.le⟩

theorem checkpoint {l : Labels} (h : l.Ordered) : l.checkpoint.2.Ordered where
  ascending := by
    refine List.pairwise_append.mpr ⟨h.ascending, List.pairwise_singleton _ _, fun n hn m hm => ?_⟩
    obtain rfl := List.mem_singleton.mp hm
    exact Nat.lt_succ_of_le (h.le n hn)
  le n hn := by
    rcases List.mem_append.mp hn with hn | hn
    · exact Nat.le_succ_of_le (h.le n hn)
    · exact Nat.le_of_eq (List.mem_singleton.mp hn)

/-- The labels with which code is laid out are those that the counter hands out, as long as it does not
start over. -/
theorem take_eq {l : Labels} (h : l.Ordered) (hcount : l.count + 1 < UInt32.size)
    (isCheckpoint : Bool) : l.take isCheckpoint = if isCheckpoint then l.checkpoint else l.fresh := by
  rw [take, Nat.mod_eq_of_lt hcount]
  cases isCheckpoint with
  | false => rfl
  | true =>
    rw [if_pos rfl, insertAscending_of_lt fun n hn => Nat.lt_succ_of_le (h.le n hn)]
    rfl

/-- The labels of the loops of code are those that the counter hands out, as long as it does not start
over. -/
theorem takeLoop_eq {l : Labels} (h : l.Ordered) (hcount : l.count + 2 < UInt32.size) :
    l.takeLoop = l.openLoop := by
  have hstart : l.take false = l.fresh := h.take_eq (Nat.lt_of_succ_lt hcount) false
  have hstop : l.fresh.2.take false = l.fresh.2.fresh := h.fresh.take_eq hcount false
  rw [takeLoop, hstart, hstop]
  rfl

end Labels.Ordered

namespace Code

namespace Instr

/-- The labels that jumps in code go to, without those of nested functions and classes. -/
def targets (code : List Instr) : List Nat :=
  code.filterMap fun
    | .goto n | .gotoUnless _ n | .next _ _ n => some n
    | _ => none

/-- The checkpoints that code sets, without those of nested functions and classes. -/
def resumes (code : List Instr) : List Nat :=
  code.filterMap fun
    | .pushCheckpoint n => some n
    | _ => none

@[simp] theorem targets_append (a b : List Instr) : targets (a ++ b) = targets a ++ targets b :=
  List.filterMap_append

@[simp] theorem targets_nil : targets [] = [] := rfl

@[simp] theorem targets_label (n : Nat) (code : List Instr) :
    targets (.label n :: code) = targets code := rfl

@[simp] theorem targets_goto (n : Nat) (code : List Instr) :
    targets (.goto n :: code) = n :: targets code := rfl

@[simp] theorem targets_gotoUnless (cond : Temp) (n : Nat) (code : List Instr) :
    targets (.gotoUnless cond n :: code) = n :: targets code := rfl

@[simp] theorem targets_next (item iterator : Temp) (n : Nat) (code : List Instr) :
    targets (.next item iterator n :: code) = n :: targets code := rfl

@[simp] theorem resumes_append (a b : List Instr) : resumes (a ++ b) = resumes a ++ resumes b :=
  List.filterMap_append

@[simp] theorem resumes_nil : resumes [] = [] := rfl

@[simp] theorem resumes_label (n : Nat) (code : List Instr) :
    resumes (.label n :: code) = resumes code := rfl

@[simp] theorem resumes_goto (n : Nat) (code : List Instr) :
    resumes (.goto n :: code) = resumes code := rfl

@[simp] theorem resumes_gotoUnless (cond : Temp) (n : Nat) (code : List Instr) :
    resumes (.gotoUnless cond n :: code) = resumes code := rfl

@[simp] theorem resumes_next (item iterator : Temp) (n : Nat) (code : List Instr) :
    resumes (.next item iterator n :: code) = resumes code := rfl

end Instr

/-- Every jump in code goes to a label in it, and every label in it is named by a jump or is a
checkpoint that the code sets, up to the pending labels. A checkpoint is set right before the return
behind which its label stands. -/
structure Uses (pending : List Nat) (code : List Instr) : Prop where
  defined : ∀ n ∈ Instr.targets code, n ∈ Instr.labels code ∨ n ∈ pending
  named : ∀ n ∈ Instr.labels code,
    n ∈ Instr.targets code ∨ n ∈ Instr.resumes code ∨ n ∈ pending
  resumed : ∀ n ∈ Instr.resumes code,
    ∃ v, [.pushCheckpoint n, .ret (some v), .label n] <:+: code

namespace Uses

variable {pending pending' : List Nat} {a b code : List Instr}

/-- Code with neither labels nor jumps. -/
theorem plain (hlabels : Instr.labels code = []) (htargets : Instr.targets code = [])
    (hresumes : Instr.resumes code = []) : Uses pending code where
  defined := by
    rw [htargets]
    exact nofun
  named := by
    rw [hlabels]
    exact nofun
  resumed := by
    rw [hresumes]
    exact nofun

theorem append (ha : Uses pending a) (hb : Uses pending b) : Uses pending (a ++ b) where
  defined n hn := by
    rw [Instr.targets_append, List.mem_append] at hn
    rw [Instr.labels_append, List.mem_append]
    rcases hn with hn | hn
    · exact (ha.defined n hn).imp_left .inl
    · exact (hb.defined n hn).imp_left .inr
  named n hn := by
    rw [Instr.labels_append, List.mem_append] at hn
    rw [Instr.targets_append, Instr.resumes_append, List.mem_append, List.mem_append]
    rcases hn with hn | hn
    · exact (ha.named n hn).imp .inl (.imp_left .inl)
    · exact (hb.named n hn).imp .inr (.imp_left .inr)
  resumed n hn := by
    rw [Instr.resumes_append, List.mem_append] at hn
    rcases hn with hn | hn
    · obtain ⟨v, h⟩ := ha.resumed n hn
      exact ⟨v, h.trans (List.prefix_append a b).isInfix⟩
    · obtain ⟨v, h⟩ := hb.resumed n hn
      exact ⟨v, h.trans (List.suffix_append a b).isInfix⟩

theorem label {n : Nat} (h : n ∈ pending) : Uses pending [.label n] where
  defined := nofun
  named m hm := by
    obtain rfl := List.mem_singleton.mp hm
    exact .inr (.inr h)
  resumed := nofun

/-- A single jump. -/
theorem jump {i : Instr} {n : Nat} (htargets : Instr.targets [i] = [n])
    (hlabels : Instr.labels [i] = []) (hresumes : Instr.resumes [i] = []) (h : n ∈ pending) :
    Uses pending [i] where
  defined m hm := by
    rw [htargets] at hm
    obtain rfl := List.mem_singleton.mp hm
    exact .inr h
  named := by
    rw [hlabels]
    exact nofun
  resumed := by
    rw [hresumes]
    exact nofun

theorem goto {n : Nat} (h : n ∈ pending) : Uses pending [.goto n] := .jump rfl rfl rfl h

theorem gotoUnless (cond : Temp) {n : Nat} (h : n ∈ pending) :
    Uses pending [.gotoUnless cond n] := .jump rfl rfl rfl h

theorem next (item iterator : Temp) {n : Nat} (h : n ∈ pending) :
    Uses pending [.next item iterator n] := .jump rfl rfl rfl h

/-- A jump over the label that follows. -/
theorem gotoLabel {n m : Nat} (hn : n ∈ pending) (hm : m ∈ pending) :
    Uses pending [.goto n, .label m] := (goto hn).append (label hm)

/-- The label at which a suspension resumes is named by its checkpoint. -/
theorem suspend (n : Nat) (v : Value) :
    Uses pending [.pushCheckpoint n, .ret (some v), .label n] where
  defined := nofun
  named m hm := by
    obtain rfl := List.mem_singleton.mp hm
    exact .inr (.inl (List.mem_singleton.mpr rfl))
  resumed m hm := by
    obtain rfl := List.mem_singleton.mp hm
    exact ⟨v, List.infix_rfl⟩

theorem weaken (h : Uses pending code) (hp : pending ⊆ pending') : Uses pending' code where
  defined n hn := (h.defined n hn).imp_right fun hpending => hp hpending
  named n hn := (h.named n hn).imp_right (.imp_right fun hpending => hp hpending)
  resumed := h.resumed

/-- Labels are not pending any more when code both marks their places and jumps to them. -/
theorem settle (own : List Nat) (h : Uses (own ++ pending) code)
    (hown : ∀ n ∈ own, n ∈ Instr.labels code ∧ n ∈ Instr.targets code) : Uses pending code where
  defined n hn := by
    rcases h.defined n hn with hlabel | hpending
    · exact .inl hlabel
    · rcases List.mem_append.mp hpending with hmem | hmem
      · exact .inl (hown n hmem).1
      · exact .inr hmem
  named n hn := by
    rcases h.named n hn with htarget | hresume | hpending
    · exact .inl htarget
    · exact .inr (.inl hresume)
    · rcases List.mem_append.mp hpending with hmem | hmem
      · exact .inl (hown n hmem).2
      · exact .inr (.inr hmem)
  resumed := h.resumed

end Uses

/-! ### Labels of structured code -/

/-- Making a piece of code accounts for the labels: as many are put down as are given out, the
checkpoints are those that the code sets, in ascending order, and nothing else is pending than the
given labels. -/
structure Accounts (pending : List Nat) (l : Labels) (code : List Instr) (l' : Labels) : Prop where
  uses : Uses pending code
  count : l'.count = l.count + (Instr.labels code).length
  checkpoints : l'.checkpoints = l.checkpoints ++ Instr.resumes code
  ordered : l.Ordered → l'.Ordered

theorem Advances.exits {l l' : Labels} {code : List Instr} (h : Advances l code l') :
    l'.exits = l.exits := by
  rw [Labels.exits, h.innermost]
  rfl

namespace Accounts

variable {pending pending' : List Nat} {l m l' : Labels} {a b code orelse : List Instr}

theorem plain (hlabels : Instr.labels code = []) (htargets : Instr.targets code = [])
    (hresumes : Instr.resumes code = []) (l : Labels) : Accounts pending l code l where
  uses := .plain hlabels htargets hresumes
  count := by rw [hlabels]; rfl
  checkpoints := by rw [hresumes, List.append_nil]
  ordered h := h

theorem gotoUnless (cond : Temp) {n : Nat} (h : n ∈ pending) (l : Labels) :
    Accounts pending l [.gotoUnless cond n] l :=
  ⟨.gotoUnless cond h, rfl, (List.append_nil _).symm, id⟩

theorem next (item iterator : Temp) {n : Nat} (h : n ∈ pending) (l : Labels) :
    Accounts pending l [.next item iterator n] l :=
  ⟨.next item iterator h, rfl, (List.append_nil _).symm, id⟩

theorem trans (ha : Accounts pending l a m) (hb : Accounts pending m b l') :
    Accounts pending l (a ++ b) l' where
  uses := ha.uses.append hb.uses
  count := by
    rw [hb.count, ha.count, Instr.labels_append, List.length_append, Nat.add_assoc]
  checkpoints := by
    rw [hb.checkpoints, ha.checkpoints, Instr.resumes_append, List.append_assoc]
  ordered h := hb.ordered (ha.ordered h)

theorem weaken (h : Accounts pending l code l') (hp : pending ⊆ pending') :
    Accounts pending' l code l' := ⟨h.uses.weaken hp, h.count, h.checkpoints, h.ordered⟩

/-! Branches and loops, in terms of what is in front of the jump back or to the end: `a` jumps to
the label behind it when a test fails or there is no item. -/

theorem branch (ha : Accounts (l.fresh.1 :: l.exits) l.fresh.2 a l')
    (hjump : l.fresh.1 ∈ Instr.targets a) :
    Accounts l.exits l (a ++ [.label l.fresh.1]) l' where
  uses := by
    refine Uses.settle [l.fresh.1] (ha.uses.append (.label List.mem_cons_self)) ?_
    simp [hjump]
  count := by
    rw [ha.count, Instr.labels_append, List.length_append]
    simp [Labels.fresh]
    omega
  checkpoints := by
    rw [ha.checkpoints, Instr.resumes_append]
    simp [Labels.fresh]
  ordered h := ha.ordered h.fresh

theorem branchElse
    (ha : Accounts (l.fresh.1 :: l.fresh.2.fresh.1 :: l.exits) l.fresh.2.fresh.2 a m)
    (hjump : l.fresh.1 ∈ Instr.targets a) (ho : Accounts l.exits m orelse l') :
    Accounts l.exits l (a ++ [.goto l.fresh.2.fresh.1, .label l.fresh.1] ++ orelse ++
      [.label l.fresh.2.fresh.1]) l' where
  uses := by
    have hsub : l.exits ⊆ [l.fresh.1, l.fresh.2.fresh.1] ++ l.exits := List.subset_append_right _ _
    refine Uses.settle [l.fresh.1, l.fresh.2.fresh.1]
      (((ha.uses.append (.gotoLabel ?_ ?_)).append (ho.uses.weaken hsub)).append (.label ?_)) ?_
    all_goals simp [hjump]
  count := by
    rw [ho.count, ha.count]
    simp [Labels.fresh]
    omega
  checkpoints := by
    rw [ho.checkpoints, ha.checkpoints]
    simp [Labels.fresh]
  ordered h := ho.ordered (ha.ordered h.fresh.fresh)

theorem loop (ha : Accounts [l.openLoop.1.start, l.openLoop.1.stop] l.openLoop.2 a m)
    (hjump : l.openLoop.1.stop ∈ Instr.targets a) :
    Accounts l.exits l ([.label l.openLoop.1.start] ++ a ++
      [.goto l.openLoop.1.start, .label l.openLoop.1.stop]) m.closeLoop where
  uses := by
    have hround := ((Uses.label (n := l.openLoop.1.start) List.mem_cons_self).append ha.uses).append
      (.gotoLabel (n := l.openLoop.1.start) (m := l.openLoop.1.stop) (by simp) (by simp))
    refine Uses.settle [l.openLoop.1.start, l.openLoop.1.stop]
      (hround.weaken (List.subset_append_left _ _)) ?_
    simp [hjump]
  count := by
    rw [show m.closeLoop.count = m.count from rfl, ha.count]
    simp [Labels.openLoop]
    omega
  checkpoints := by
    rw [show m.closeLoop.checkpoints = m.checkpoints from rfl, ha.checkpoints]
    simp [Labels.openLoop]
  ordered h := (ha.ordered h.openLoop).closeLoop

theorem loopElse
    (ha : Accounts [l.openLoop.1.start, l.openLoop.1.stop, l.openLoop.2.fresh.1]
      l.openLoop.2.fresh.2 a m)
    (hjump : l.openLoop.2.fresh.1 ∈ Instr.targets a)
    (ho : Accounts l.exits m.closeLoop orelse l') :
    Accounts l.exits l ([.label l.openLoop.1.start] ++ a ++
      [.goto l.openLoop.1.start, .label l.openLoop.2.fresh.1] ++ orelse ++
      [.goto l.openLoop.1.stop, .label l.openLoop.1.stop]) l' where
  uses := by
    have hround := ((Uses.label (n := l.openLoop.1.start) List.mem_cons_self).append ha.uses).append
      (.gotoLabel (n := l.openLoop.1.start) (m := l.openLoop.2.fresh.1) (by simp) (by simp))
    refine Uses.settle [l.openLoop.1.start, l.openLoop.1.stop, l.openLoop.2.fresh.1]
      (((hround.weaken (List.subset_append_left _ _)).append
        (ho.uses.weaken (List.subset_append_right _ _))).append (.gotoLabel ?_ ?_)) ?_
    all_goals simp [hjump]
  count := by
    rw [ho.count, show m.closeLoop.count = m.count from rfl, ha.count]
    simp [Labels.openLoop, Labels.fresh]
    omega
  checkpoints := by
    rw [ho.checkpoints, show m.closeLoop.checkpoints = m.checkpoints from rfl, ha.checkpoints]
    simp [Labels.openLoop, Labels.fresh]
  ordered h := ho.ordered (ha.ordered h.openLoop.fresh).closeLoop

end Accounts

namespace Step

theorem linearAll_accounts {code : List Step}
    (hadv : ∀ s ∈ code, ∀ l, Advances l (s.linear l).1 (s.linear l).2)
    (h : ∀ s ∈ code, ∀ l, Accounts l.exits l (s.linear l).1 (s.linear l).2) (l : Labels) :
    Accounts l.exits l (linearAll code l).1 (linearAll code l).2 := by
  induction code generalizing l with
  | nil =>
    rw [linearAll]
    exact .plain rfl rfl rfl l
  | cons s rest ih =>
    have hrest := ih (fun s hs => hadv s (List.mem_cons_of_mem _ hs))
      (fun s hs => h s (List.mem_cons_of_mem _ hs)) (s.linear l).2
    rw [(hadv s List.mem_cons_self l).exits] at hrest
    rw [linearAll]
    exact (h s List.mem_cons_self l).trans hrest

theorem straight_accounts {s : Step} (h : s.IsStraight) (l : Labels) :
    Accounts l.exits l (s.linear l).1 (s.linear l).2 := by
  cases s with
  | action _ | function _ _ _ _ | classBody _ _ _ _ _ =>
    rw [linear]
    exact .plain rfl rfl rfl l
  | suspend v =>
    rw [linear]
    exact ⟨.suspend _ v, rfl, rfl, fun h => h.checkpoint⟩
  | ret _ | breakLoop | continueLoop | branch _ _ _ _ | whileLoop _ _ _ _ | forLoop _ _ _ _ _ =>
    exact h.elim

theorem straightAll_accounts {code : List Step} (h : ∀ s ∈ code, s.IsStraight) (l : Labels) :
    Accounts l.exits l (linearAll code l).1 (linearAll code l).2 :=
  linearAll_accounts (fun s hs => straight_advances (h s hs))
    (fun s hs => straight_accounts (h s hs))
    l

/-- A jump out of the innermost open loop goes to a label of that loop. -/
theorem loopJump_accounts {label : Loop → Nat}
    (h : ∀ loop : Loop, label loop ∈ [loop.start, loop.stop]) (l : Labels) :
    Accounts l.exits l (Instr.loopJump label l) l := by
  cases hloop : l.innermost? with
  | none =>
    rw [Instr.loopJump, hloop]
    exact .plain rfl rfl rfl l
  | some loop =>
    rw [Instr.loopJump, hloop]
    refine ⟨.goto ?_, rfl, (List.append_nil _).symm, id⟩
    rw [Labels.exits, hloop]
    exact h loop

/-- Two pieces of code in a row at whose begin the same loop is open. -/
theorem linearAll_pair (pending : List Nat) (middle : List Instr) {first second : List Step}
    {l : Labels} (hadv : Advances l (linearAll first l).1 (linearAll first l).2)
    (h : Accounts l.exits l (linearAll first l).1 (linearAll first l).2)
    (h' : ∀ l, Accounts l.exits l (linearAll second l).1 (linearAll second l).2)
    (hp : l.exits ⊆ pending) (hm : ∀ l, Accounts pending l middle l) :
    Accounts pending l ((linearAll first l).1 ++ middle ++
      (linearAll second (linearAll first l).2).1) (linearAll second (linearAll first l).2).2 := by
  have hsecond := h' (linearAll first l).2
  rw [hadv.exits] at hsecond
  exact ((h.weaken hp).trans (hm _)).trans (hsecond.weaken hp)

theorem WellFormed.accounts {inLoop : Bool} {s : Step} (h : s.WellFormed inLoop) (l : Labels) :
    Accounts l.exits l (s.linear l).1 (s.linear l).2 := by
  -- In each case the labels that the step takes for itself are pending in its parts.
  induction h generalizing l with
  | straight hs => exact straight_accounts hs l
  | ret v =>
    rw [linear]
    exact .plain rfl rfl rfl l
  | breakLoop =>
    rw [linear]
    exact loopJump_accounts (fun loop => by simp) l
  | continueLoop =>
    rw [linear]
    exact loopJump_accounts (fun loop => by simp) l
  | @branch _ test body cond orelse htest hbody helse ihBody ihElse =>
    have ht := straightAll_accounts htest.straight
    have htAdv := straightAll_advances htest.straight
    have hb := linearAll_accounts (fun s hs => (hbody s hs).advances) ihBody
    have hbAdv := linearAll_advances fun s hs => (hbody s hs).advances
    cases orelse with
    | none =>
      have ha := linearAll_pair (l.fresh.1 :: l.exits) [.gotoUnless cond l.fresh.1]
        (htAdv l.fresh.2) (ht _) hb (List.subset_cons_self _ _) (.gotoUnless cond List.mem_cons_self)
      rw [linear]
      exact ha.branch (by simp)
    | some orelse =>
      have hadv := (htAdv l.fresh.2.fresh.2).trans (hbAdv _)
      have ha := linearAll_pair ([l.fresh.1, l.fresh.2.fresh.1] ++ l.exits)
        [.gotoUnless cond l.fresh.1] (htAdv l.fresh.2.fresh.2) (ht _) hb
        (List.subset_append_right _ _) (.gotoUnless cond (by simp))
      have ho := linearAll_accounts (fun s hs => (helse orelse rfl s hs).advances)
        (ihElse orelse rfl) (linearAll body (linearAll test l.fresh.2.fresh.2).2).2
      rw [hadv.exits] at ho
      rw [linear]
      exact ha.branchElse (by simp) ho
  | @whileLoop _ test body cond orelse htest hbody helse ihBody ihElse =>
    have ht := straightAll_accounts htest.straight
    have htAdv := straightAll_advances htest.straight
    have hb := linearAll_accounts (fun s hs => (hbody s hs).advances) ihBody
    have hbAdv := linearAll_advances fun s hs => (hbody s hs).advances
    cases orelse with
    | none =>
      have ha := linearAll_pair [l.openLoop.1.start, l.openLoop.1.stop]
        [.gotoUnless cond l.openLoop.1.stop] (htAdv l.openLoop.2) (ht _) hb (List.Subset.refl _)
        (.gotoUnless cond (by simp))
      rw [linear]
      simpa only [List.append_assoc] using ha.loop (by simp)
    | some orelse =>
      have hadv := (htAdv l.openLoop.2.fresh.2).trans (hbAdv _)
      have ha := linearAll_pair [l.openLoop.1.start, l.openLoop.1.stop, l.openLoop.2.fresh.1]
        [.gotoUnless cond l.openLoop.2.fresh.1] (htAdv l.openLoop.2.fresh.2) (ht _) hb
        (List.subset_append_left _ _) (.gotoUnless cond (by simp))
      have ho := linearAll_accounts (fun s hs => (helse orelse rfl s hs).advances)
        (ihElse orelse rfl) (linearAll body (linearAll test l.openLoop.2.fresh.2).2).2.closeLoop
      rw [hadv.closed.exits] at ho
      rw [linear]
      simpa only [List.append_assoc] using ha.loopElse (by simp) ho
  | @forLoop _ iterator item bind body orelse hbind hbody helse ihBody ihElse =>
    have hi := straightAll_accounts hbind
    have hiAdv := straightAll_advances hbind
    have hb := linearAll_accounts (fun s hs => (hbody s hs).advances) ihBody
    have hbAdv := linearAll_advances fun s hs => (hbody s hs).advances
    cases orelse with
    | none =>
      have hround := linearAll_pair [l.openLoop.1.start, l.openLoop.1.stop] []
        (hiAdv l.openLoop.2) (hi _) hb (List.Subset.refl _) (.plain rfl rfl rfl)
      have ha := (Accounts.next item iterator (n := l.openLoop.1.stop) (by simp) _).trans hround
      rw [linear]
      simpa only [List.cons_append, List.nil_append, List.append_assoc] using ha.loop (by simp)
    | some orelse =>
      have hadv := (hiAdv l.openLoop.2.fresh.2).trans (hbAdv _)
      have hround := linearAll_pair
        [l.openLoop.1.start, l.openLoop.1.stop, l.openLoop.2.fresh.1] []
        (hiAdv l.openLoop.2.fresh.2) (hi _) hb (List.subset_append_left _ _) (.plain rfl rfl rfl)
      have ha := (Accounts.next item iterator (n := l.openLoop.2.fresh.1) (by simp) _).trans hround
      have ho := linearAll_accounts (fun s hs => (helse orelse rfl s hs).advances)
        (ihElse orelse rfl) (linearAll body (linearAll bind l.openLoop.2.fresh.2).2).2.closeLoop
      rw [hadv.closed.exits] at ho
      rw [linear]
      simpa only [List.cons_append, List.nil_append, List.append_assoc] using
        ha.loopElse (by simp) ho

end Step

/-- The labels of a goto program are well formed. -/
structure GotoProgram.WellLabelled (g : GotoProgram) (count : Nat) : Prop where
  /-- No label stands in the code twice. -/
  nodup : (Instr.labels g.code).Nodup
  /-- The labels are numbered from 1. -/
  numbered : ∀ n, n ∈ Instr.labels g.code ↔ 1 ≤ n ∧ n ≤ count
  /-- Every jump goes to one of them, and so does every case of the dispatch. -/
  defined : ∀ n, n ∈ Instr.targets g.code ∨ n ∈ g.checkpoints → n ∈ Instr.labels g.code
  /-- Every label is named by a jump or by a case of the dispatch. -/
  named : ∀ n ∈ Instr.labels g.code, n ∈ Instr.targets g.code ∨ n ∈ g.checkpoints
  /-- The cases of the dispatch are the checkpoints that the code sets. -/
  checkpoints : g.checkpoints = Instr.resumes g.code
  ascending : g.checkpoints.Pairwise (· < ·)
  /-- A frame is entered again right behind the return that has suspended it. -/
  resumed : ∀ n ∈ g.checkpoints,
    ∃ v, [.pushCheckpoint n, .ret (some v), .label n] <:+: g.code

/-- The labels of code that is numbered and accounted for from the beginning. -/
theorem Numbered.perm {n : Nat} {code : List Instr} (h : Numbered 0 n code)
    (hlength : (Instr.labels code).length = n) :
    (Instr.labels code).Perm (List.range' 1 n) := by
  have hmem : ∀ m ∈ Instr.labels code, 0 < m ∧ m ≤ n := by
    intro m hm
    have hcount := h.count m
    have hpos := List.count_pos_iff.mpr hm
    split_ifs at hcount with hbounds
    · exact hbounds
    · omega
  have hnodup : (Instr.labels code).Nodup := by
    rw [List.nodup_iff_count_le_one]
    intro m
    have hcount := h.count m
    split_ifs at hcount <;> omega
  have hsub : Instr.labels code ⊆ List.range' 1 n := by
    intro m hm
    obtain ⟨hpos, hle⟩ := hmem m hm
    rw [List.mem_range'_1]
    omega
  exact (hnodup.subperm hsub).perm_of_length_le
    (Nat.le_of_eq (List.length_range'.trans hlength.symm))

/-- The labels of well-formed code are well formed. -/
theorem GotoProgram.ofBody_wellLabelled {body : List Step}
    (h : ∀ s ∈ body, s.WellFormed false) :
    (ofBody body).WellLabelled (Step.linearAll body {}).2.count := by
  have hadv := Step.linearAll_advances (fun s hs => (h s hs).advances) {}
  have hacc := Step.linearAll_accounts (fun s hs => (h s hs).advances)
    (fun s hs => (h s hs).accounts) {}
  have hlength : (Instr.labels (ofBody body).code).length = (Step.linearAll body {}).2.count := by
    rw [hacc.count]
    exact (Nat.zero_add _).symm
  have hperm := hadv.numbered.perm hlength
  have hcheckpoints : (ofBody body).checkpoints = Instr.resumes (ofBody body).code := by
    rw [show (ofBody body).checkpoints = (Step.linearAll body {}).2.checkpoints from rfl,
      hacc.checkpoints]
    rfl
  refine ⟨hperm.nodup_iff.mpr List.nodup_range', fun n => ?_, fun n hn => ?_, fun n hn => ?_,
    hcheckpoints, ?_, fun n hn => ?_⟩
  · rw [show (ofBody body).code = (Step.linearAll body {}).1 from rfl, hperm.mem_iff,
      List.mem_range'_1]
    omega
  · rcases hn with htarget | hcheck
    · exact (hacc.uses.defined n htarget).resolve_right nofun
    · obtain ⟨v, hcode⟩ := hacc.uses.resumed n (hcheckpoints ▸ hcheck)
      have hlabel : n ∈ Instr.labels [.pushCheckpoint n, .ret (some v), .label n] :=
        List.mem_singleton.mpr rfl
      exact (hcode.filterMap _).mem hlabel
  · rcases hacc.uses.named n hn with htarget | hresume | hpending
    · exact .inl htarget
    · exact .inr (hcheckpoints ▸ hresume)
    · cases hpending
  · exact (hacc.ordered ⟨List.Pairwise.nil, nofun⟩).ascending
  · exact hacc.uses.resumed n (hcheckpoints ▸ hn)

end Code

end Goward
