import Goward.Proofs.LabelNumbers

/-!
# Following runs

What it means that a goto program follows a run from a place on, and how what follows the pieces of
a run follows the whole. Where a run is cut short because a loop takes too many rounds, the program
has taken at least as many steps by then, so in the long run neither does anything that the other
one does not do.
-/

namespace Goward.Code

namespace GotoProgram

/-- Where code is left, by how it is left. A body that is left is left altogether. -/
structure Exits where
  done : Point
  broke : Point
  continued : Point

/-- The place for an outcome. -/
def Exits.at (e : Exits) : Outcome → Point
  | .done => e.done
  | .broke => e.broke
  | .continued => e.continued
  | .left => .returned
  | .cut => .lost

/-- The exits of code in a loop: the labels of the loop, and the place behind the code. -/
def exits (g : GotoProgram) (loop : Option Loop) (done : Point) : Exits where
  done := done
  broke := loop.elim .lost fun loop => g.place loop.stop
  continued := loop.elim .lost fun loop => g.place loop.start

/-- A state in which a program is after `m` steps, when it has followed a run. -/
structure Reached (bound : Nat) (e : Exits) (r : Outcome × List Effect) (m : Nat) (c : Config) :
    Prop where
  trace : c.trace = r.2
  /-- A run that is cut short keeps the program busy. -/
  cut : r.1 = .cut → bound ≤ m ∧ ∃ rest, c.point = .running rest
  ended : r.1 ≠ .cut → c.pending = none ∧ c.point = e.at r.1

/-- From a place on, the program follows a run and comes to the exit for its outcome. -/
def Follows (g : GotoProgram) (ω : Oracle) (bound : Nat) (start : Point) (e : Exits)
    (run : List Effect → Outcome × List Effect) : Prop :=
  ∀ c : Config, c.point = start → c.pending = none →
    ∃ m, Reached bound e (run c.trace) m ((g.step ω)^[m] c)

/-- From one place the program comes to another one without doing anything. -/
def Passes (g : GotoProgram) (ω : Oracle) (p q : Point) : Prop :=
  ∀ c : Config, c.point = p → ∃ m, (g.step ω)^[m] c = { c with point := q }

/-- From one place the program comes to one of two others, as the oracle decides. -/
def Decides (g : GotoProgram) (ω : Oracle) (start yes no : Point) (es : List Effect) : Prop :=
  ∀ c : Config, c.point = start → c.pending = none →
    ∃ m c', (g.step ω)^[m + 1] c = c' ∧ c'.trace = c.trace ++ es ∧ c'.pending = none ∧
      c'.point = if ω (c.trace ++ es) then yes else no

variable {g : GotoProgram} {ω : Oracle} {bound n : Nat} {p q start : Point} {e e' : Exits}

namespace Passes

theorem refl (p : Point) : Passes g ω p p := fun c h => ⟨0, by rw [← h]; rfl⟩

theorem label {k : Nat} {rest : List Instr} :
    Passes g ω (.running (.label k :: rest)) (.running rest) :=
  fun _ h => ⟨1, step_label h⟩

theorem goto {k : Nat} {rest : List Instr} (h : g.place k = q) :
    Passes g ω (.running (.goto k :: rest)) q := by
  intro c hc
  refine ⟨1, ?_⟩
  rw [Function.iterate_one, step_goto hc, h]

end Passes

theorem Reached.returned {r : Outcome × List Effect} {m : Nat} {c : Config}
    (h : Reached bound e r m c) (hleft : r.1 = .left) : c.point = .returned := by
  have hne : r.1 ≠ .cut := by
    rw [hleft]
    exact nofun
  rw [(h.ended hne).2, hleft]
  rfl

/-- The end of a run that is not cut short. -/
theorem Reached.uncut {o : Outcome} {h : List Effect} {m : Nat} {c : Config} (ho : o ≠ .cut)
    (htrace : c.trace = h) (hend : c.pending = none ∧ c.point = e.at o) :
    Reached bound e (o, h) m c :=
  ⟨htrace, fun hcut => absurd hcut ho, fun _ => hend⟩

/-- What is reached later on is reached, and some more steps are taken by then. -/
theorem Reached.later {bound' m : Nat} {r : Outcome × List Effect} {c : Config}
    (h : ∃ k, Reached bound e r k ((g.step ω)^[k] ((g.step ω)^[m] c))) (hb : bound' ≤ bound + m) :
    ∃ k, Reached bound' e r k ((g.step ω)^[k] c) := by
  obtain ⟨k, hk⟩ := h
  refine ⟨k + m, ?_⟩
  rw [Function.iterate_add_apply]
  refine ⟨hk.trace, fun hcut => ⟨?_, (hk.cut hcut).2⟩, hk.ended⟩
  have := (hk.cut hcut).1
  omega

namespace Follows

variable {run : List Effect → Outcome × List Effect}

theorem weaken {bound' : Nat} (h : Follows g ω bound start e run) (hb : bound' ≤ bound) :
    Follows g ω bound' start e run := by
  intro c hc hp
  obtain ⟨m, hm⟩ := h c hc hp
  exact ⟨m, hm.trace, fun hcut => ⟨Nat.le_trans hb (hm.cut hcut).1, (hm.cut hcut).2⟩, hm.ended⟩

/-- Steps in front that do nothing. -/
theorem passing (hpass : Passes g ω p q) (h : Follows g ω bound q e run) :
    Follows g ω bound p e run := by
  intro c hc hp
  obtain ⟨k, hk⟩ := hpass c hc
  refine Reached.later (m := k) ?_ (Nat.le_add_right bound k)
  rw [hk]
  exact h { c with point := q } rfl hp

/-- Steps behind that do nothing. -/
theorem redirect (h : Follows g ω bound start e run) (hdone : Passes g ω e.done e'.done)
    (hbroke : Passes g ω e.broke e'.broke) (hcontinued : Passes g ω e.continued e'.continued) :
    Follows g ω bound start e' run := by
  intro c hc hp
  obtain ⟨m, hm⟩ := h c hc hp
  by_cases hcut : (run c.trace).1 = .cut
  · exact ⟨m, hm.trace, hm.cut, fun hne => absurd hcut hne⟩
  · obtain ⟨hpending, hpoint⟩ := hm.ended hcut
    have hpass : Passes g ω (e.at (run c.trace).1) (e'.at (run c.trace).1) := by
      cases ho : (run c.trace).1 with
      | done => exact hdone
      | broke => exact hbroke
      | continued => exact hcontinued
      | left => exact .refl _
      | cut => exact absurd ho hcut
    obtain ⟨k, hk⟩ := hpass _ hpoint
    refine ⟨k + m, ?_⟩
    rw [Function.iterate_add_apply, hk]
    exact ⟨hm.trace, fun h => absurd h hcut, fun _ => ⟨hpending, rfl⟩⟩

theorem skip : Follows g ω bound e.done e (Run.skip n) :=
  fun _ hc hp => ⟨0, rfl, nofun, fun _ => ⟨hp, hc⟩⟩

theorem seq {a b : Run} (ha : Follows g ω bound start { e with done := p } (a n))
    (hb : Follows g ω bound p e (b n)) : Follows g ω bound start e (a.seq b n) := by
  intro c hc hp
  obtain ⟨m, hm⟩ := ha c hc hp
  simp only [Run.seq]
  rcases hr : a n c.trace with ⟨o, h⟩
  rw [hr] at hm
  cases o with
  | done =>
    obtain ⟨hpending, hpoint⟩ := hm.ended (by simp)
    have hb := hb _ hpoint hpending
    rw [hm.trace] at hb
    exact Reached.later hb (Nat.le_add_right bound m)
  | broke | continued | left => exact ⟨m, .uncut (by decide) hm.trace (hm.ended (by simp))⟩
  | cut => exact ⟨m, hm.trace, hm.cut, fun h => absurd rfl h⟩

/-- A decision between two runs takes a step at least. -/
theorem choose {yes no : Point} {es : List Effect} {a b : Run}
    (hd : Decides g ω start yes no es) (ha : Follows g ω bound yes e (a n))
    (hb : Follows g ω bound no e (b n)) :
    Follows g ω (bound + 1) start e ((Run.emit es).seq (.choose ω a b) n) := by
  intro c hc hp
  obtain ⟨k, c', hk, htrace, hpending, hpoint⟩ := hd c hc hp
  show ∃ m, Reached (bound + 1) e ((Run.choose ω a b) n (c.trace ++ es)) m _
  refine Reached.later (m := k + 1) ?_ (show bound + 1 ≤ bound + (k + 1) by omega)
  rw [hk]
  simp only [Run.choose]
  by_cases hω : ω (c.trace ++ es) = true
  · rw [if_pos hω] at hpoint ⊢
    rw [← htrace]
    exact ha c' hpoint hpending
  · rw [if_neg hω] at hpoint ⊢
    rw [← htrace]
    exact hb c' hpoint hpending

/-- A round of a loop: its body, at the end of which, or at a `continue`, the next round begins. -/
theorem round {body next : Run} (hb : Follows g ω bound start ⟨p, e.done, p⟩ (body n))
    (hn : Follows g ω bound p e (next n)) :
    Follows g ω bound start e (Run.round body next n) := by
  intro c hc hp
  obtain ⟨m, hm⟩ := hb c hc hp
  simp only [Run.round]
  rcases hr : body n c.trace with ⟨o, h⟩
  rw [hr] at hm
  have hnext (hpending : ((g.step ω)^[m] c).pending = none)
      (hpoint : ((g.step ω)^[m] c).point = p) :
      ∃ m, Reached bound e (next n h) m ((g.step ω)^[m] c) := by
    have hn := hn _ hpoint hpending
    rw [hm.trace] at hn
    exact Reached.later hn (Nat.le_add_right bound m)
  cases o with
  | done | continued =>
    obtain ⟨hpending, hpoint⟩ := hm.ended (by simp)
    exact hnext hpending hpoint
  | broke | left => exact ⟨m, .uncut (by decide) hm.trace (hm.ended (by simp))⟩
  | cut => exact ⟨m, hm.trace, hm.cut, fun h => absurd rfl h⟩

/-- The rounds of a loop. After `k` rounds, the program has taken `k` steps at least. -/
theorem rounds {code : List Instr} {yes no : Point} {es : List Effect} {body orelse : Run}
    (hd : Decides g ω (.running code) yes no es)
    (hb : Follows g ω n yes ⟨.running code, e.done, .running code⟩ (body n))
    (ho : Follows g ω n no e (orelse n)) (k : Nat) (hk : k ≤ n) :
    Follows g ω k (.running code) e (Run.rounds ω (.emit es) body orelse k n) := by
  induction k with
  | zero => exact fun c hc _ => ⟨0, rfl, fun _ => ⟨Nat.le_refl 0, code, hc⟩, fun h => absurd rfl h⟩
  | succ k ih =>
    -- The decision takes the step that the bound grows by; the body and the other side may be cut
    -- short as well, but only after `n` steps.
    have hk' : k ≤ n := by omega
    exact choose hd (round (hb.weaken hk') (ih hk')) (ho.weaken hk')

theorem loop {code : List Instr} {yes no : Point} {es : List Effect} {body orelse : Run}
    (hd : Decides g ω (.running code) yes no es)
    (hb : Follows g ω n yes ⟨.running code, e.done, .running code⟩ (body n))
    (ho : Follows g ω n no e (orelse n)) :
    Follows g ω n (.running code) e (Run.loop ω (.emit es) body orelse n) :=
  rounds hd hb ho n (Nat.le_refl n)

end Follows

end GotoProgram

end Goward.Code
