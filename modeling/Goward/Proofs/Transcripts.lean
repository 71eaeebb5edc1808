import Mathlib.Data.List.Induction
import Goward.Proofs.Isolation

/-!
# Transcripts

Something is asked one request after another, answers each of them and changes. A transcript shows
the requests with their answers, which is all that a user sees, so what is left in the end is said in
terms of it. The resources of a scope are one such thing, and the registry of a unit is another.
-/

namespace Goward

section

variable {σ ι ο : Type} {step : σ → ι → ο × σ} {s : σ} {op : ι} {ops more : List ι}

/-- What is left after some requests. -/
def stateAfter (step : σ → ι → ο × σ) (s : σ) : List ι → σ
  | [] => s
  | op :: rest => stateAfter step (step s op).2 rest

/-- Some requests, each with its answer. -/
def transcript (step : σ → ι → ο × σ) (s : σ) : List ι → List (ι × ο)
  | [] => []
  | op :: rest => (op, (step s op).1) :: transcript step (step s op).2 rest

theorem stateAfter_cons :
    stateAfter step s (op :: ops) = stateAfter step (step s op).2 ops := rfl

theorem transcript_cons :
    transcript step s (op :: ops) = (op, (step s op).1) :: transcript step (step s op).2 ops := rfl

theorem stateAfter_append :
    stateAfter step s (ops ++ more) = stateAfter step (stateAfter step s ops) more := by
  induction ops generalizing s with
  | nil => rfl
  | cons op rest ih => rw [List.cons_append, stateAfter_cons, ih, stateAfter_cons]

theorem transcript_append : transcript step s (ops ++ more) =
    transcript step s ops ++ transcript step (stateAfter step s ops) more := by
  induction ops generalizing s with
  | nil => rfl
  | cons op rest ih =>
    rw [List.cons_append, transcript_cons, ih, transcript_cons, stateAfter_cons, List.cons_append]

theorem stateAfter_concat :
    stateAfter step s (ops ++ [op]) = (step (stateAfter step s ops) op).2 := stateAfter_append

theorem transcript_concat : transcript step s (ops ++ [op]) =
    transcript step s ops ++ [(op, (step (stateAfter step s ops) op).1)] := transcript_append

/-- A transcript shows all requests. -/
@[simp] theorem map_fst_transcript (step : σ → ι → ο × σ) (s : σ) (ops : List ι) :
    (transcript step s ops).map Prod.fst = ops := by
  induction ops generalizing s with
  | nil => rfl
  | cons op rest ih => rw [transcript_cons, List.map_cons, ih]

/-- What a transcript shows before some request is the transcript of the requests before it. -/
theorem transcript_split {before later : List (ι × ο)} {taken : ι × ο}
    (h : transcript step s ops = before ++ taken :: later) :
    ∃ earlier, before = transcript step s earlier ∧
      taken.2 = (step (stateAfter step s earlier) taken.1).1 := by
  induction before generalizing s ops with
  | nil =>
    cases ops with
    | nil => cases h
    | cons op rest =>
      rw [transcript_cons, List.nil_append, List.cons.injEq] at h
      exact ⟨[], rfl, h.1 ▸ rfl⟩
  | cons first before ih =>
    cases ops with
    | nil => cases h
    | cons op rest =>
      rw [transcript_cons, List.cons_append, List.cons.injEq] at h
      obtain ⟨rfl, hrest⟩ := h
      obtain ⟨earlier, rfl, hanswer⟩ := ih hrest
      exact ⟨op :: earlier, rfl, hanswer⟩

theorem exists_of_mem_transcript {taken : ι × ο} (h : taken ∈ transcript step s ops) :
    ∃ earlier, taken.2 = (step (stateAfter step s earlier) taken.1).1 := by
  obtain ⟨before, later, hsplit⟩ := List.append_of_mem h
  obtain ⟨earlier, -, hanswer⟩ := transcript_split hsplit
  exact ⟨earlier, hanswer⟩

end

/-- Requests to resources, each with its answer. -/
abbrev ResourceHistory := List (ResourceOp × Granted)

end Goward
