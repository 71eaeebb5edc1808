import Mathlib.Algebra.BigOperators.Group.List.Basic
import Mathlib.Data.List.Sort
import Mathlib.Data.Nat.ModEq
import Goward.Proofs.Transcripts

/-!
# Histories of labels and loops

Labels and loops after any history of requests. One number after the other is given to labels,
checkpoints and loops alike, up to the width of the counter: behind the last number of 32 bits labels
come again. A loop is open until more loops have been closed than opened since it was opened; so each
request to close a loop goes to the loop that was opened last among those that are open, and one that
finds no open loop changes nothing.
-/

namespace Goward

/-- The two labels of a loop. -/
def Loop.labels (l : Loop) : List Nat := [l.start, l.stop]

namespace Granted

/-- The loop that an answer opens. -/
def loop? : Granted → Option Loop
  | loop l => some l
  | temp _ | freed | refused _ | label _ | closed _ => none

/-- The labels that an answer gives. -/
def labels : Granted → List Nat
  | label n => [n]
  | loop l => l.labels
  | temp _ | freed | refused _ | closed _ => []

end Granted

/-- How many labels a request asks for. -/
def ResourceOp.labelsAsked : ResourceOp → Nat
  | label _ => 1
  | openLoop => 2
  | alloc _ | free _ | closeLoop => 0

/-- A loop that was opened before some requests is closed by them: at some point they have closed
more loops than they have opened. -/
def ClosesLoop (later : List ResourceOp) : Prop :=
  ∃ part, part <+: later ∧ part.count .openLoop < part.count .closeLoop

/-- How many of the loops that were opened before some requests are closed by them. -/
def loopsClosed : List ResourceOp → Nat
  | [] => 0
  | .openLoop :: rest => loopsClosed rest - 1
  | .closeLoop :: rest => loopsClosed rest + 1
  | .alloc _ :: rest | .free _ :: rest | .label _ :: rest => loopsClosed rest

theorem lt_loopsClosed_iff {ops : List ResourceOp} {k : Nat} :
    k < loopsClosed ops ↔
      ∃ part, part <+: ops ∧ part.count .openLoop + k < part.count .closeLoop := by
  induction ops generalizing k with
  | nil => simp [loopsClosed]
  | cons op rest ih =>
    -- A part of the requests is empty, or it begins with the first request.
    have hpart : (∃ part, part <+: op :: rest ∧
          part.count .openLoop + k < part.count ResourceOp.closeLoop) ↔
        ∃ part, part <+: rest ∧
          (op :: part).count .openLoop + k < (op :: part).count .closeLoop := by
      constructor
      · rintro ⟨part, hprefix, hlt⟩
        rcases List.prefix_cons_iff.mp hprefix with rfl | ⟨part, rfl, hrest⟩
        · simp at hlt
        · exact ⟨part, hrest, hlt⟩
      · rintro ⟨part, hprefix, hlt⟩
        exact ⟨op :: part, List.cons_prefix_cons.mpr ⟨rfl, hprefix⟩, hlt⟩
    rw [hpart]
    cases op with
    | openLoop =>
      have hne : ResourceOp.openLoop ≠ .closeLoop := by decide
      have hshift (part : List ResourceOp) :
          part.count .openLoop + 1 + k = part.count .openLoop + (k + 1) := by omega
      simp only [loopsClosed, List.count_cons_self, List.count_cons_of_ne hne, hshift, ← ih]
      exact Nat.lt_sub_iff_add_lt
    | closeLoop =>
      have hne : ResourceOp.closeLoop ≠ .openLoop := by decide
      simp only [loopsClosed, List.count_cons_self, List.count_cons_of_ne hne]
      cases k with
      | zero => exact ⟨fun _ => ⟨[], List.nil_prefix, Nat.zero_lt_one⟩, fun _ => Nat.succ_pos _⟩
      | succ k => simp only [← Nat.add_assoc, Nat.add_lt_add_iff_right, ih]
    | alloc _ | free _ | label _ =>
      simp only [loopsClosed, ih, ne_eq, reduceCtorEq, not_false_eq_true, List.count_cons_of_ne]

theorem closesLoop_iff {later : List ResourceOp} : ClosesLoop later ↔ 0 < loopsClosed later := by
  rw [lt_loopsClosed_iff]
  rfl

instance (later : List ResourceOp) : Decidable (ClosesLoop later) :=
  decidable_of_iff _ closesLoop_iff.symm

namespace ResourceHistory

/-- The labels that were given, those of loops included. -/
def labels (h : ResourceHistory) : List Nat := h.flatMap (·.2.labels)

/-- The label of a checkpoint, if that was asked for. -/
def checkpoint? : ResourceOp × Granted → Option Nat
  | (.label true, .label n) => some n
  | _ => none

/-- How many labels were asked for. -/
def asked (h : ResourceHistory) : Nat := (h.map (·.1.labelsAsked)).sum

/-- The labels that were asked for as checkpoints. -/
def checkpoints (h : ResourceHistory) : List Nat := h.filterMap checkpoint?

/-- The loops that were opened. -/
def loops (h : ResourceHistory) : List Loop := h.filterMap (·.2.loop?)

/-- The loops that were opened and are not closed by what came later, the last one first. -/
def openLoops : ResourceHistory → List Loop
  | [] => []
  | taken :: later =>
    openLoops later ++ if ClosesLoop (later.map Prod.fst) then [] else taken.2.loop?.toList

variable {h later : ResourceHistory} {taken : ResourceOp × Granted} {n : Nat}

theorem labels_cons : labels (taken :: later) = taken.2.labels ++ labels later :=
  List.flatMap_cons

theorem checkpoints_cons :
    checkpoints (taken :: later) = (checkpoint? taken).toList ++ checkpoints later := by
  rw [checkpoints, List.filterMap_cons, checkpoints]
  cases checkpoint? taken <;> rfl

theorem loops_cons : loops (taken :: later) = taken.2.loop?.toList ++ loops later := by
  rw [loops, List.filterMap_cons, loops]
  cases taken.2.loop? <;> rfl

theorem answer_of_checkpoint? (hn : checkpoint? taken = some n) : taken.2 = .label n := by
  unfold checkpoint? at hn
  split at hn
  · cases hn
    rfl
  · cases hn

/-- The label of a checkpoint, the labels of a loop and any other label are different gifts. -/
theorem count_answer_le (taken : ResourceOp × Granted) (n : Nat) :
    (checkpoint? taken).toList.count n + (taken.2.loop?.toList.flatMap Loop.labels).count n ≤
      taken.2.labels.count n := by
  cases hc : checkpoint? taken with
  | some m => simp [answer_of_checkpoint? hc, Granted.loop?, Granted.labels]
  | none => cases taken.2 <;> simp [Granted.loop?, Granted.labels]

theorem count_labels_le (h : ResourceHistory) (n : Nat) :
    h.checkpoints.count n + (h.loops.flatMap Loop.labels).count n ≤ h.labels.count n := by
  induction h with
  | nil => exact Nat.le_refl 0
  | cons taken rest ih =>
    have hfirst := count_answer_le taken n
    rw [checkpoints_cons, loops_cons, labels_cons, List.flatMap_append, List.count_append,
      List.count_append, List.count_append]
    omega

theorem checkpoints_sublist (h : ResourceHistory) : h.checkpoints.Sublist h.labels := by
  induction h with
  | nil => exact .refl _
  | cons taken rest ih =>
    rw [checkpoints_cons, labels_cons]
    refine .append ?_ ih
    cases hc : checkpoint? taken with
    | some n => simp [answer_of_checkpoint? hc, Granted.labels]
    | none => exact List.nil_sublist _

theorem loops_sublist (h : ResourceHistory) : (h.loops.flatMap Loop.labels).Sublist h.labels := by
  induction h with
  | nil => exact .refl _
  | cons taken rest ih =>
    rw [loops_cons, labels_cons, List.flatMap_append]
    refine .append ?_ ih
    cases taken.2 <;> simp [Granted.loop?, Granted.labels]

theorem openLoops_sublist (h : ResourceHistory) : h.openLoops.Sublist h.loops.reverse := by
  induction h with
  | nil => exact .refl _
  | cons taken later ih =>
    rw [openLoops, loops_cons, List.reverse_append]
    refine ih.append ?_
    split
    · exact List.nil_sublist _
    · cases taken.2.loop? <;> exact .refl _

end ResourceHistory

namespace Labels

theorem mem_insertAscending {n m : Nat} {xs : List Nat} :
    m ∈ insertAscending n xs ↔ m = n ∨ m ∈ xs := by
  induction xs with
  | nil => simp [insertAscending]
  | cons x rest ih =>
    rw [insertAscending]
    split
    · exact List.mem_cons
    · split
      · next heq => simp [heq]
      · rw [List.mem_cons, ih, List.mem_cons, or_left_comm]

theorem ascending_insertAscending (n : Nat) {xs : List Nat} (h : xs.Pairwise (· < ·)) :
    (insertAscending n xs).Pairwise (· < ·) := by
  induction xs with
  | nil => exact List.pairwise_singleton _ _
  | cons x rest ih =>
    obtain ⟨hx, hrest⟩ := List.pairwise_cons.mp h
    rw [insertAscending]
    split
    · next hlt =>
      refine List.pairwise_cons.mpr ⟨List.forall_mem_cons.mpr ⟨hlt, fun y hy => ?_⟩, h⟩
      exact hlt.trans (hx y hy)
    · split
      · exact h
      · refine List.pairwise_cons.mpr ⟨fun y hy => ?_, ih hrest⟩
        rcases mem_insertAscending.mp hy with rfl | hy
        · omega
        · exact hx y hy

end Labels

/-! ### What requests do to labels -/

namespace Resources

variable {r r' : Resources} {v : Temp}

theorem labels_free (h : r.free v = .ok r') : r'.labels = r.labels := by
  unfold free at h
  cases hq : r.pool.free v with
  | ok q =>
    rw [hq, Except.map, Except.ok.injEq] at h
    rw [← h]
  | error e =>
    rw [hq, Except.map] at h
    cases h

/-- Giving back a scratch variable has nothing to do with labels. -/
theorem grant_free (r : Resources) (v : Temp) :
    (r.grant (.free v)).2.labels = r.labels ∧ (r.grant (.free v)).1.labels = [] ∧
      (r.grant (.free v)).1.loop? = none := by
  rw [grant]
  split
  · next r' hr => exact ⟨labels_free hr, rfl, rfl⟩
  · exact ⟨rfl, rfl, rfl⟩

/-- The labels that a request is given are the next numbers of the counter, as many as it asks for. -/
theorem grant_labels (r : Resources) (op : ResourceOp) :
    (r.grant op).1.labels =
        (List.range' (r.labels.count + 1) op.labelsAsked).map (· % UInt32.size) ∧
      (r.grant op).2.labels.count ≡ r.labels.count + op.labelsAsked [MOD UInt32.size] := by
  cases op with
  | label isCheckpoint => exact ⟨rfl, Nat.mod_modEq _ _⟩
  | openLoop =>
    have hsecond : (r.labels.count + 1) % UInt32.size + 1 ≡ r.labels.count + 2 [MOD UInt32.size] :=
      (Nat.mod_modEq _ _).add_right 1
    exact ⟨congrArg ([_, ·]) hsecond, (Nat.mod_modEq _ _).trans hsecond⟩
  | closeLoop | alloc _ => exact ⟨rfl, .refl _⟩
  | free v => exact ⟨(r.grant_free v).2.1, congrArg (Labels.count · % _) (r.grant_free v).1⟩

/-- Numbers that are counted on from equal places of the counter are equal. -/
theorem map_mod_range' {m a b : Nat} (h : a ≡ b [MOD m]) (n : Nat) :
    (List.range' a n).map (· % m) = (List.range' b n).map (· % m) := by
  rw [List.range'_eq_map_range, List.range'_eq_map_range, List.map_map, List.map_map]
  exact List.map_congr_left fun i _ => h.add_right i

/-- The labels of a history go on from the last one that was given before. -/
theorem labels_transcript (r : Resources) (ops : List ResourceOp) :
    ResourceHistory.labels (transcript grant r ops) =
      (List.range' (r.labels.count + 1) (ops.map ResourceOp.labelsAsked).sum).map
        (· % UInt32.size) := by
  induction ops generalizing r with
  | nil => rfl
  | cons op rest ih =>
    obtain ⟨hgiven, hcount⟩ := r.grant_labels op
    rw [transcript_cons, ResourceHistory.labels_cons, ih, hgiven,
      map_mod_range' (hcount.add_right 1), ← List.map_append, List.map_cons, List.sum_cons,
      Nat.add_right_comm, List.range'_append_1]

theorem mem_grant_checkpoints (r : Resources) (op : ResourceOp) (n : Nat) :
    n ∈ (r.grant op).2.labels.checkpoints ↔ n ∈ r.labels.checkpoints ∨
      ResourceHistory.checkpoint? (op, (r.grant op).1) = some n := by
  cases op with
  | label isCheckpoint =>
    cases isCheckpoint with
    | true => simp [grant, label, Labels.take, Labels.mem_insertAscending,
        ResourceHistory.checkpoint?, or_comm, eq_comm]
    | false => simp [grant, label, Labels.take, ResourceHistory.checkpoint?]
  | openLoop | closeLoop | alloc _ => exact (or_iff_left (Option.some_ne_none n).symm).symm
  | free v =>
    rw [(r.grant_free v).1]
    exact (or_iff_left (Option.some_ne_none n).symm).symm

theorem ascending_grant_checkpoints {r : Resources} (h : r.labels.checkpoints.Pairwise (· < ·))
    (op : ResourceOp) : (r.grant op).2.labels.checkpoints.Pairwise (· < ·) := by
  cases op with
  | label isCheckpoint =>
    cases isCheckpoint with
    | true => exact Labels.ascending_insertAscending _ h
    | false => exact h
  | openLoop | closeLoop | alloc _ => exact h
  | free v => rwa [(r.grant_free v).1]

/-- The checkpoints after a history are those before it and those that were asked for. -/
theorem mem_checkpoints_after (r : Resources) (ops : List ResourceOp) (n : Nat) :
    n ∈ (stateAfter grant r ops).labels.checkpoints ↔ n ∈ r.labels.checkpoints ∨
      n ∈ ResourceHistory.checkpoints (transcript grant r ops) := by
  induction ops generalizing r with
  | nil => exact (or_iff_left List.not_mem_nil).symm
  | cons op rest ih =>
    rw [stateAfter_cons, ih, mem_grant_checkpoints, transcript_cons,
      ResourceHistory.checkpoints_cons, List.mem_append, Option.mem_toList, or_assoc]

theorem ascending_checkpoints_after {r : Resources} (h : r.labels.checkpoints.Pairwise (· < ·))
    (ops : List ResourceOp) : (stateAfter grant r ops).labels.checkpoints.Pairwise (· < ·) := by
  induction ops generalizing r with
  | nil => exact h
  | cons op rest ih => exact ih (ascending_grant_checkpoints h op)

/-- A request that neither opens nor closes a loop leaves the open loops alone. -/
theorem grant_loops {op : ResourceOp} (hopen : op ≠ .openLoop) (hclose : op ≠ .closeLoop) :
    (r.grant op).2.labels.loops = r.labels.loops ∧ (r.grant op).1.loop? = none ∧
      ∀ rest, loopsClosed (op :: rest) = loopsClosed rest := by
  cases op with
  | openLoop => exact absurd rfl hopen
  | closeLoop => exact absurd rfl hclose
  | alloc _ => exact ⟨rfl, rfl, fun _ => rfl⟩
  | label isCheckpoint => cases isCheckpoint <;> exact ⟨rfl, rfl, fun _ => rfl⟩
  | free v =>
    obtain ⟨hlabels, -, hloop⟩ := r.grant_free v
    exact ⟨congrArg Labels.loops hlabels, hloop, fun _ => rfl⟩

/-- The open loops are those that were opened and not closed, and behind them those that were open
before and were not closed either. -/
theorem loops_after (r : Resources) (ops : List ResourceOp) :
    (stateAfter grant r ops).labels.loops =
      ResourceHistory.openLoops (transcript grant r ops) ++ r.labels.loops.drop (loopsClosed ops) := by
  induction ops generalizing r with
  | nil => rfl
  | cons op rest ih =>
    rw [stateAfter_cons, transcript_cons, ih, ResourceHistory.openLoops, map_fst_transcript,
      List.append_assoc]
    simp only [closesLoop_iff]
    congr 1
    by_cases hopen : op = .openLoop
    · -- What closes a loop after this one was opened, closes this one first.
      subst hopen
      rw [loopsClosed]
      cases loopsClosed rest <;> rfl
    · by_cases hclose : op = .closeLoop
      · subst hclose
        rw [loopsClosed, grant, closeLoop, Labels.closeLoop, List.drop_tail]
        simp [Granted.loop?]
      · obtain ⟨hloops, hnone, hclosed⟩ := grant_loops (r := r) hopen hclose
        rw [hloops, hclosed, hnone]
        simp

/-- The two labels of a loop follow one another on the counter. -/
theorem grant_loop {op : ResourceOp} {l : Loop} (h : (r.grant op).1.loop? = some l) :
    l.stop = (l.start + 1) % UInt32.size := by
  cases op with
  | openLoop =>
    cases h
    rfl
  | free v =>
    rw [(r.grant_free v).2.2] at h
    cases h
  | alloc _ | label _ | closeLoop => cases h

end Resources

/-- Labels and loops are as a history says, as far as the width of the counter lets them be. -/
structure Labels.KeepsHistory (l : Labels) (h : ResourceHistory) : Prop where
  /-- The labels that were given are the numbers of the counter from 1 on, as many as were asked for. -/
  counted : h.labels = (List.range' 1 h.asked).map (· % UInt32.size)
  /-- Every request for a label or a loop is answered with one. -/
  answered : (∀ isCheckpoint g, (.label isCheckpoint, g) ∈ h → ∃ n, g = .label n) ∧
    ∀ g, (.openLoop, g) ∈ h → ∃ loop, g = .loop loop
  /-- The checkpoints are the labels that were asked for as such, each of them once. -/
  checkpoints : l.checkpoints.Pairwise (· < ·) ∧ ∀ n, n ∈ l.checkpoints ↔ n ∈ h.checkpoints
  /-- The two labels of a loop follow one another on the counter. -/
  successive : ∀ loop ∈ h.loops, loop.stop = (loop.start + 1) % UInt32.size
  /-- The open loops are those that were opened and not closed since. -/
  loops : l.loops = h.openLoops
  /-- The innermost loop is the one that was opened last, and it is the one that is closed next. -/
  innermost : l.innermost? = h.openLoops.head? ∧
    l.closeLoop = { l with loops := h.openLoops.tail }
  /-- Whenever a loop was to be closed, it was the one opened last among those open at that time. -/
  closed : ∀ before g later, h = before ++ (.closeLoop, g) :: later →
    g = .closed (ResourceHistory.openLoops before).head?

/-- Labels and loops are as a history says. -/
structure Labels.FollowsHistory (l : Labels) (h : ResourceHistory) : Prop
    extends l.KeepsHistory h where
  /-- The labels that were given are numbered from 1, as many as were asked for. -/
  numbered : h.labels = List.range' 1 h.asked
  /-- The checkpoints are the labels that were asked for as such, in ascending order. -/
  inOrder : l.checkpoints = h.checkpoints
  /-- No label of a loop is a checkpoint. -/
  apart : ∀ loop ∈ h.loops, ∀ n ∈ loop.labels, n ∉ l.checkpoints
  /-- The two labels of a loop follow one another. -/
  consecutive : ∀ loop ∈ h.loops, loop.start + 1 = loop.stop
  /-- The labels of a loop come after those of the loops around it. -/
  nested : l.loops.Pairwise fun inner outer => ∀ n ∈ inner.labels, ∀ m ∈ outer.labels, m < n

/-- Numbers from 1 on are those of a counter just if it does not start over. -/
theorem map_mod_range'_eq_iff {m n : Nat} (hm : 0 < m) :
    (List.range' 1 n).map (· % m) = List.range' 1 n ↔ n < m := by
  constructor
  · intro heq
    by_contra hle
    have hmem : m ∈ (List.range' 1 n).map (· % m) := by
      rw [heq, List.mem_range'_1]
      omega
    obtain ⟨k, -, hk⟩ := List.mem_map.mp hmem
    exact absurd hk (Nat.mod_lt k hm).ne
  · intro hlt
    refine (List.map_congr_left fun k hk => ?_).trans (List.map_id _)
    have hbound := List.mem_range'_1.mp hk
    exact Nat.mod_eq_of_lt (by omega)

theorem ResourceHistory.asked_transcript (r : Resources) (ops : List ResourceOp) :
    ResourceHistory.asked (transcript Resources.grant r ops) =
      (ops.map ResourceOp.labelsAsked).sum := by
  have hasked := congrArg (List.map ResourceOp.labelsAsked) (map_fst_transcript Resources.grant r ops)
  rw [List.map_map] at hasked
  exact congrArg List.sum hasked

namespace Labels

/-- Labels follow a history only if it asks for no more of them than there are. -/
theorem FollowsHistory.asked_lt {l : Labels} {h : ResourceHistory} (hf : l.FollowsHistory h) :
    h.asked < UInt32.size :=
  (map_mod_range'_eq_iff (by decide)).mp (hf.counted.symm.trans hf.numbered)

/-- Labels that are kept in step with a history follow it if there are enough of them. -/
theorem KeepsHistory.follows {l : Labels} {h : ResourceHistory} (hk : l.KeepsHistory h)
    (hasked : h.asked < UInt32.size) : l.FollowsHistory h := by
  have hnumbered : h.labels = List.range' 1 h.asked :=
    hk.counted.trans ((map_mod_range'_eq_iff (by decide)).mpr hasked)
  have hascending : h.labels.Pairwise (· < ·) := hnumbered ▸ List.pairwise_lt_range'
  have hflat := h.loops_sublist
  refine ⟨hk, hnumbered, ?_, fun loop hloop n hn hc => ?_, fun loop hloop => ?_, ?_⟩
  · exact hk.checkpoints.1.eq_of_mem_iff (hascending.sublist h.checkpoints_sublist)
      hk.checkpoints.2
  · have hle := h.count_labels_le n
    have honce := List.nodup_iff_count_le_one.mp (hascending.imp ne_of_lt) n
    have hcheckpoint := List.count_pos_iff.mpr ((hk.checkpoints.2 n).mp hc)
    have hlabel := List.count_pos_iff.mpr (List.mem_flatMap.mpr ⟨loop, hloop, hn⟩)
    omega
  · -- The counter has not started over between the two labels: no label is 0.
    have hgiven {n : Nat} (hn : n ∈ loop.labels) : 1 ≤ n ∧ n < 1 + h.asked :=
      List.mem_range'_1.mp (hnumbered ▸ hflat.subset (List.mem_flatMap.mpr ⟨loop, hloop, hn⟩))
    have hstart := hgiven (List.mem_cons_self : loop.start ∈ loop.labels)
    have hstop := hgiven (List.mem_cons_of_mem _ List.mem_cons_self : loop.stop ∈ loop.labels)
    have hnext := hk.successive loop hloop
    generalize UInt32.size = size at hasked hnext
    rcases Nat.lt_or_ge (loop.start + 1) size with hlt | hge
    · rw [hnext, Nat.mod_eq_of_lt hlt]
    · have hsize : loop.start + 1 = size := by omega
      rw [hsize, Nat.mod_self] at hnext
      omega
  · rw [hk.loops]
    refine List.Pairwise.sublist h.openLoops_sublist (List.pairwise_reverse.mpr ?_)
    exact (List.pairwise_flatMap.mp (hascending.sublist hflat)).2.imp
      fun h n hn m hm => h m hm n hn

end Labels

/-- Labels and loops are kept in step with any history. -/
theorem Resources.keepsHistory (ops : List ResourceOp) :
    (stateAfter grant {} ops).labels.KeepsHistory (transcript grant {} ops) := by
  have hloops (ops : List ResourceOp) : (stateAfter grant {} ops).labels.loops =
      ResourceHistory.openLoops (transcript grant {} ops) := by
    rw [loops_after]
    exact (congrArg (_ ++ ·) List.drop_nil).trans (List.append_nil _)
  refine ⟨?_, ⟨fun b g hg => ?_, fun g hg => ?_⟩, ⟨?_, fun n => ?_⟩, fun loop hloop => ?_, hloops ops,
    ⟨?_, ?_⟩, fun before g later hsplit => ?_⟩
  · rw [ResourceHistory.asked_transcript]
    exact labels_transcript _ ops
  · obtain ⟨earlier, hanswer⟩ := exists_of_mem_transcript hg
    exact ⟨_, hanswer⟩
  · obtain ⟨earlier, hanswer⟩ := exists_of_mem_transcript hg
    exact ⟨_, hanswer⟩
  · exact ascending_checkpoints_after .nil ops
  · exact (mem_checkpoints_after _ ops n).trans (or_iff_right List.not_mem_nil)
  · obtain ⟨taken, htaken, hopened⟩ := List.mem_filterMap.mp hloop
    obtain ⟨earlier, hanswer⟩ := exists_of_mem_transcript htaken
    exact grant_loop (hanswer ▸ hopened)
  · rw [Labels.innermost?, hloops]
  · rw [Labels.closeLoop, hloops]
  · obtain ⟨earlier, rfl, hanswer⟩ := transcript_split hsplit
    rw [← hloops]
    exact hanswer

/-- Labels and loops are kept in step with any history, and they follow their discipline just if fewer
labels are asked for than fit in 32 bits: labels are numbered one after the other for all purposes,
the checkpoints among them are those that were asked for, and loops are opened and closed like
brackets, with closing requests that find no open loop passed over. -/
theorem labels_follow_history (ops : List ResourceOp) :
    (stateAfter Resources.grant {} ops).labels.KeepsHistory (transcript Resources.grant {} ops) ∧
    ((stateAfter Resources.grant {} ops).labels.FollowsHistory
      (transcript Resources.grant {} ops) ↔ (ops.map ResourceOp.labelsAsked).sum < UInt32.size) := by
  have hkeeps := Resources.keepsHistory ops
  rw [← ResourceHistory.asked_transcript {} ops]
  exact ⟨hkeeps, Labels.FollowsHistory.asked_lt, hkeeps.follows⟩

/-- After as many requests as there are numbers of 32 bits, the label 0 has been given out. -/
theorem labels_start_over : ¬(stateAfter Resources.grant {}
    (List.replicate UInt32.size (.label false))).labels.FollowsHistory
      (transcript Resources.grant {} (List.replicate UInt32.size (.label false))) := by
  intro hf
  have hasked := hf.asked_lt
  generalize UInt32.size = size at hasked
  rw [ResourceHistory.asked_transcript, List.map_replicate, List.sum_replicate,
    ResourceOp.labelsAsked] at hasked
  simp at hasked

/-- The first request finds no open loop, and the last one closes the inner one of two loops. -/
example : ResourceHistory.openLoops (transcript Resources.grant {}
    [.closeLoop, .openLoop, .label true, .openLoop, .closeLoop]) = [⟨1, 2⟩] := by decide

end Goward
