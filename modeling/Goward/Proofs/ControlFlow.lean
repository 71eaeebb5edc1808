import Goward.Proofs.Following
import Goward.Proofs.Rendering

/-!
# Control flow

The linear code of a body does what the statements of the body say. Each step of structured code is
simulated by its linear code wherever that stands in a goto program: by induction on the shape of
the step, with the labels of the innermost open loop as the places where `break` and `continue` go.
The goto program of a whole body then does exactly what the interpretation of the body does, no
matter how tests and iterators answer.
-/

namespace Goward

namespace Code

namespace GotoProgram

variable {g : GotoProgram} {ω : Oracle} {low high : Nat}

/-- A jump goes to where its label stands. -/
theorem place_eq (hg : Numbered low high g.code) {k : Nat} {rest : List Instr}
    (h : .label k :: rest <:+ g.code) : g.place k = .running rest := by
  obtain ⟨before, hcode⟩ := h
  rw [← hcode] at hg
  rw [place, ← hcode, hg.behind]
  rfl

/-- Wherever the linear code of a step or of some steps stands in a program, the program follows the
run. It stands at labels from which its own are numbered, and if it is code inside a loop, there is
an open loop. -/
def Simulates (g : GotoProgram) (ω : Oracle) (inLoop : Bool)
    (code : Labels → List Instr × Labels) (run : Run) : Prop :=
  ∀ l rest n, (code l).1 ++ rest <:+ g.code → (code l).2.checkpoints ⊆ g.checkpoints →
    (inLoop = true → l.innermost?.isSome) →
    Follows g ω n (.running ((code l).1 ++ rest)) (g.exits l.innermost? (.running rest)) (run n)

namespace Simulates

variable {inLoop : Bool}

theorem all {code : List Step} (hadv : ∀ s ∈ code, ∀ l, Advances l (s.linear l).1 (s.linear l).2)
    (h : ∀ s ∈ code, Simulates g ω inLoop s.linear (s.exec ω)) :
    Simulates g ω inLoop (Step.linearAll code) (Step.execAll ω code) := by
  induction code with
  | nil =>
    intro l rest n _ _ _
    rw [Step.linearAll, Step.execAll]
    exact Follows.skip (e := g.exits l.innermost? (.running rest))
  | cons s code ih =>
    intro l rest n hcode hcheck hloop
    have ha := hadv s List.mem_cons_self l
    have hrest := fun s hs => hadv s (List.mem_cons_of_mem _ hs)
    have hb := Step.linearAll_advances hrest (s.linear l).2
    have hinner : (s.linear l).2.innermost? = l.innermost? := congrArg List.head? ha.loops
    rw [Step.linearAll] at hcode hcheck ⊢
    rw [List.append_assoc] at hcode ⊢
    rw [Step.execAll]
    apply Follows.seq (p := .running ((Step.linearAll code (s.linear l).2).1 ++ rest))
    · exact h s List.mem_cons_self l _ n hcode (fun k hk => hcheck (hb.checkpoints hk)) hloop
    · have hfollows := ih hrest (fun s hs => h s (List.mem_cons_of_mem _ hs)) (s.linear l).2 rest n
        ((List.suffix_append _ _).trans hcode) hcheck (by rw [hinner]; exact hloop)
      rw [hinner] at hfollows
      exact hfollows

theorem straight (hg : Numbered low high g.code) {s : Step} (hs : s.IsStraight) :
    Simulates g ω inLoop s.linear (s.exec ω) := by
  intro l rest n hcode hcheck _ c hc hp
  cases s with
  | action a =>
    rw [Step.linear] at hc
    refine ⟨1, ?_⟩
    rw [Function.iterate_one, step_action hc, Step.exec]
    exact .uncut (by decide) rfl ⟨hp, rfl⟩
  | suspend v =>
    rw [Step.linear] at hcode hc hcheck
    have hplace := place_eq hg ((List.suffix_append [_, _] _).trans hcode)
    have hmem : l.checkpoint.1 ∈ g.checkpoints :=
      hcheck (List.mem_append_right _ List.mem_cons_self)
    have hreenter : g.reenter l.checkpoint.1 = .running rest := by
      rw [reenter, if_pos hmem]
      exact hplace
    refine ⟨2, ?_⟩
    rw [Function.iterate_succ_apply, Function.iterate_one, step_pushCheckpoint hc,
      step_suspend rfl rfl, hreenter, Step.exec]
    exact .uncut (by decide) rfl ⟨rfl, rfl⟩
  | function dst header temps body =>
    rw [Step.linear] at hc
    refine ⟨1, ?_⟩
    rw [Function.iterate_one, step_function hc, Step.exec, Step.effects, Step.linear]
    exact .uncut (by decide) rfl ⟨hp, rfl⟩
  | classBody dst name names temps body =>
    rw [Step.linear] at hc
    refine ⟨1, ?_⟩
    rw [Function.iterate_one, step_classBody hc, Step.exec, Step.effects, Step.linear]
    exact .uncut (by decide) rfl ⟨hp, rfl⟩
  | ret _ | breakLoop | continueLoop | branch _ _ _ _ | whileLoop _ _ _ _ | forLoop _ _ _ _ _ =>
    exact hs.elim

theorem straightAll (hg : Numbered low high g.code) {code : List Step}
    (h : ∀ s ∈ code, s.IsStraight) :
    Simulates g ω inLoop (Step.linearAll code) (Step.execAll ω code) :=
  .all (fun s hs => Step.straight_advances (h s hs)) fun s hs => straight hg (h s hs)

end Simulates

/-- The code of a test and the jump behind it. -/
theorem decides_test (hg : Numbered low high g.code) {test : List Step} {cond : Temp}
    (ht : Step.IsTest test cond) {l : Labels} {k : Nat} {rest : List Instr}
    (hcode : (Step.linearAll test l).1 ++ .gotoUnless cond k :: rest <:+ g.code)
    (hcheck : (Step.linearAll test l).2.checkpoints ⊆ g.checkpoints) :
    Decides g ω (.running ((Step.linearAll test l).1 ++ .gotoUnless cond k :: rest))
      (.running rest) (g.place k) (test.flatMap Step.effects) := by
  obtain ⟨code, v, rfl, hstraight⟩ := ht
  have hstore (l : Labels) : Step.linearAll [.action (.store cond (.isTrue v))] l =
      ([.action (.store cond (.isTrue v))], l) := by
    rw [Step.linearAll, Step.linearAll, Step.linear]
    rfl
  rw [Step.linearAll_append, hstore, List.append_assoc] at hcode ⊢
  rw [Step.linearAll_append, hstore] at hcheck
  intro c hc hp
  have hsim : Simulates g ω false (Step.linearAll code) (Step.execAll ω code) :=
    .straightAll hg hstraight
  -- Up to the last action the code is straight. That action stores what the jump then reads.
  obtain ⟨m, hm⟩ := hsim l _ 0 hcode hcheck (absurd · Bool.false_ne_true) c hc hp
  rw [Step.execAll_straight hstraight] at hm
  obtain ⟨hpending, hpoint⟩ := hm.ended (show Outcome.done ≠ .cut by decide)
  have hat : ((g.step ω)^[m] c).point =
      .running (.action (.store cond (.isTrue v)) :: .gotoUnless cond k :: rest) := hpoint
  have htrace : ((g.step ω)^[m] c).trace ++ (Step.action (.store cond (.isTrue v))).effects =
      c.trace ++ (code ++ [Step.action (.store cond (.isTrue v))]).flatMap Step.effects := by
    have hcode : ((g.step ω)^[m] c).trace = c.trace ++ code.flatMap Step.effects := hm.trace
    rw [hcode, List.flatMap_append, List.append_assoc, List.flatMap_singleton]
  refine ⟨1 + m, _, rfl, ?_⟩
  rw [show 1 + m + 1 = 2 + m by omega, Function.iterate_add_apply, Function.iterate_succ_apply,
    Function.iterate_one, step_action hat, step_gotoUnless rfl, htrace]
  refine ⟨rfl, hpending, ?_⟩
  simp only [Action.condsAfter, if_true]

/-- The request for the next item. -/
theorem decides_next {item iterator : Temp} {k : Nat} {rest : List Instr} :
    Decides g ω (.running (.next item iterator k :: rest)) (.running rest) (g.place k)
      [.next item iterator] := by
  intro c hc hp
  refine ⟨0, _, rfl, ?_⟩
  rw [Function.iterate_one, step_next hc]
  exact ⟨rfl, hp, rfl⟩

namespace Simulates

variable {inLoop : Bool}

/-- A jump to a label of the innermost loop. -/
theorem loopJump {label : Loop → Nat} {o : Outcome}
    (hexit : ∀ loop p, (g.exits (some loop) p).at o = g.place (label loop)) (ho : o ≠ .cut) :
    Simulates g ω true (fun l => (Instr.loopJump label l, l)) (.stop o) := by
  intro l rest n hcode _ hloop c hc hp
  obtain ⟨loop, hl⟩ := Option.isSome_iff_exists.mp (hloop rfl)
  have hjump : Instr.loopJump label l = [.goto (label loop)] := by
    simp only [Instr.loopJump, hl, Option.map_some, Option.toList_some]
  change c.point = .running (Instr.loopJump label l ++ rest) at hc
  rw [hjump] at hc
  refine ⟨1, ?_⟩
  rw [Function.iterate_one, step_goto hc]
  refine ⟨rfl, fun h => absurd h ho, fun _ => ⟨hp, ?_⟩⟩
  rw [hl]
  exact (hexit loop _).symm

theorem ret (v : Option Value) :
    Simulates g ω inLoop (fun l => ([.ret v], l)) ((Run.emit [.returned v]).seq (.stop .left)) := by
  intro l rest n _ _ _ c hc hp
  refine ⟨1, ?_⟩
  rw [Function.iterate_one, step_ret hc hp]
  exact ⟨rfl, nofun, fun _ => ⟨hp, rfl⟩⟩

/-- The run is followed in terms of the loop that is open. -/
theorem follows {code : Labels → List Instr × Labels} {run : Run} {l : Labels} {loop : Option Loop}
    {rest : List Instr} {n : Nat} (h : Simulates g ω inLoop code run)
    (hcode : (code l).1 ++ rest <:+ g.code) (hcheck : (code l).2.checkpoints ⊆ g.checkpoints)
    (hl : l.innermost? = loop) (hloop : inLoop = true → loop.isSome) :
    Follows g ω n (.running ((code l).1 ++ rest)) (g.exits loop (.running rest)) (run n) := by
  subst hl
  exact h l rest n hcode hcheck hloop

/-- A branch without another side. -/
theorem branch (hg : Numbered low high g.code) {test body : List Step} {cond : Temp}
    (ht : Step.IsTest test cond)
    (hadv : ∀ l, Advances l (Step.linearAll body l).1 (Step.linearAll body l).2)
    (hb : Simulates g ω inLoop (Step.linearAll body) (Step.execAll ω body)) :
    Simulates g ω inLoop (Step.branch test cond body none).linear
      ((Step.branch test cond body none).exec ω) := by
  intro l rest n hcode hcheck hloop
  have hta := Step.straightAll_advances ht.straight l.fresh.2
  rw [Step.exec_branch, Step.execAll_straight ht.straight]
  rw [Step.linear] at hcode hcheck ⊢
  simp only [List.append_assoc, List.cons_append, List.nil_append] at hcode ⊢
  have hbody := (List.suffix_cons _ _).trans ((List.suffix_append _ _).trans hcode)
  have hdone := place_eq hg ((List.suffix_append _ _).trans hbody)
  refine Follows.weaken (Follows.choose (decides_test hg ht hcode ?_) ?_ ?_) (Nat.le_succ n)
  · exact fun k hk => hcheck ((hadv _).checkpoints hk)
  · exact (hb.follows hbody hcheck hta.innermost hloop).redirect .label (.refl _) (.refl _)
  · rw [hdone]
    exact Follows.skip (n := n) (e := g.exits l.innermost? (.running rest))

/-- A branch with two sides. -/
theorem branchElse (hg : Numbered low high g.code) {test body orelse : List Step} {cond : Temp}
    (ht : Step.IsTest test cond)
    (hadv : ∀ l, Advances l (Step.linearAll body l).1 (Step.linearAll body l).2)
    (hadvElse : ∀ l, Advances l (Step.linearAll orelse l).1 (Step.linearAll orelse l).2)
    (hb : Simulates g ω inLoop (Step.linearAll body) (Step.execAll ω body))
    (ho : Simulates g ω inLoop (Step.linearAll orelse) (Step.execAll ω orelse)) :
    Simulates g ω inLoop (Step.branch test cond body (some orelse)).linear
      ((Step.branch test cond body (some orelse)).exec ω) := by
  intro l rest n hcode hcheck hloop
  have hta := Step.straightAll_advances ht.straight l.fresh.2.fresh.2
  have hba := hadv (Step.linearAll test l.fresh.2.fresh.2).2
  have hoa := hadvElse (Step.linearAll body (Step.linearAll test l.fresh.2.fresh.2).2).2
  rw [Step.exec_branch, Step.execAll_straight ht.straight]
  rw [Step.linear] at hcode hcheck ⊢
  simp only [List.append_assoc, List.cons_append, List.nil_append] at hcode ⊢
  have hbody := (List.suffix_cons _ _).trans ((List.suffix_append _ _).trans hcode)
  have hlabel := (List.suffix_cons _ _).trans ((List.suffix_append _ _).trans hbody)
  have hside := (List.suffix_cons _ _).trans hlabel
  have hother := place_eq hg hlabel
  have hdone := place_eq hg ((List.suffix_append _ _).trans hside)
  refine Follows.weaken (Follows.choose (decides_test hg ht hcode ?_) ?_ ?_) (Nat.le_succ n)
  · exact fun k hk => hcheck (hoa.checkpoints (hba.checkpoints hk))
  · exact (hb.follows hbody (fun k hk => hcheck (hoa.checkpoints hk)) hta.innermost hloop).redirect
      (.goto hdone) (.refl _) (.refl _)
  · rw [hother]
    exact (ho.follows hside hcheck (hba.innermost.trans hta.innermost) hloop).redirect .label
      (.refl _) (.refl _)

end Simulates

/-! ### Loops -/

/-- What loops have in common: a head that decides whether there is another round, a body that jumps
back to the head, and another side that goes on behind the loop. -/
theorem Follows.loopAt {loop : Loop} {outer : Option Loop} {head back rest : List Instr}
    {yes no : Point} {es : List Effect} {body orelse : Run} {n : Nat}
    (hstart : g.place loop.start = .running head) (hstop : g.place loop.stop = .running rest)
    (hd : Decides g ω (.running head) yes no es)
    (hb : Follows g ω n yes (g.exits (some loop) (.running (.goto loop.start :: back))) (body n))
    (ho : Follows g ω n no (g.exits outer (.running rest)) (orelse n)) :
    Follows g ω n (.running (.label loop.start :: head)) (g.exits outer (.running rest))
      (Run.loop ω (.emit es) body orelse n) := by
  refine .passing .label (.loop hd ?_ ho)
  refine hb.redirect (.goto hstart) ?_ ?_
  · show Passes g ω (g.place loop.stop) (.running rest)
    rw [hstop]
    exact .refl _
  · show Passes g ω (g.place loop.start) (.running head)
    rw [hstart]
    exact .refl _

namespace Simulates

variable {inLoop : Bool}

theorem whileLoop (hg : Numbered low high g.code) {test body : List Step} {cond : Temp}
    (ht : Step.IsTest test cond)
    (hadv : ∀ l, Advances l (Step.linearAll body l).1 (Step.linearAll body l).2)
    (hb : Simulates g ω true (Step.linearAll body) (Step.execAll ω body)) :
    Simulates g ω inLoop (Step.whileLoop test cond body none).linear
      ((Step.whileLoop test cond body none).exec ω) := by
  intro l rest n hcode hcheck _
  have hta := Step.straightAll_advances ht.straight l.openLoop.2
  have hba := hadv (Step.linearAll test l.openLoop.2).2
  rw [Step.exec_whileLoop, Step.execAll_straight ht.straight]
  rw [Step.linear] at hcode hcheck ⊢
  simp only [List.append_assoc, List.cons_append, List.nil_append] at hcode ⊢
  have hhead := (List.suffix_cons _ _).trans hcode
  have hbody := (List.suffix_cons _ _).trans ((List.suffix_append _ _).trans hhead)
  have hlabel := (List.suffix_cons _ _).trans ((List.suffix_append _ _).trans hbody)
  have hstop := place_eq hg hlabel
  refine .loopAt (place_eq hg hcode) hstop
    (decides_test hg ht hhead fun k hk => hcheck (hba.checkpoints hk))
    (hb.follows hbody hcheck hta.innermost fun _ => rfl) ?_
  rw [hstop]
  exact Follows.skip (n := n) (e := g.exits l.innermost? (.running rest))

theorem whileElse (hg : Numbered low high g.code) {test body orelse : List Step} {cond : Temp}
    (ht : Step.IsTest test cond)
    (hadv : ∀ l, Advances l (Step.linearAll body l).1 (Step.linearAll body l).2)
    (hadvElse : ∀ l, Advances l (Step.linearAll orelse l).1 (Step.linearAll orelse l).2)
    (hb : Simulates g ω true (Step.linearAll body) (Step.execAll ω body))
    (ho : Simulates g ω inLoop (Step.linearAll orelse) (Step.execAll ω orelse)) :
    Simulates g ω inLoop (Step.whileLoop test cond body (some orelse)).linear
      ((Step.whileLoop test cond body (some orelse)).exec ω) := by
  intro l rest n hcode hcheck hloop
  have hta := Step.straightAll_advances ht.straight l.openLoop.2.fresh.2
  have hba := hadv (Step.linearAll test l.openLoop.2.fresh.2).2
  have hoa := hadvElse
    (Step.linearAll body (Step.linearAll test l.openLoop.2.fresh.2).2).2.closeLoop
  rw [Step.exec_whileLoop, Step.execAll_straight ht.straight]
  rw [Step.linear] at hcode hcheck ⊢
  simp only [List.append_assoc, List.cons_append, List.nil_append] at hcode ⊢
  have hhead := (List.suffix_cons _ _).trans hcode
  have hbody := (List.suffix_cons _ _).trans ((List.suffix_append _ _).trans hhead)
  have hlabel := (List.suffix_cons _ _).trans ((List.suffix_append _ _).trans hbody)
  have hside := (List.suffix_cons _ _).trans hlabel
  have hstop := place_eq hg ((List.suffix_cons _ _).trans ((List.suffix_append _ _).trans hside))
  refine .loopAt (place_eq hg hcode) hstop
    (decides_test hg ht hhead fun k hk => hcheck (hoa.checkpoints (hba.checkpoints hk)))
    (hb.follows hbody (fun k hk => hcheck (hoa.checkpoints hk)) hta.innermost fun _ => rfl) ?_
  rw [place_eq hg hlabel]
  exact (ho.follows hside hcheck (hta.trans hba).closed.innermost hloop).redirect (.goto hstop)
    (.refl _) (.refl _)

theorem forLoop (hg : Numbered low high g.code) {bind body : List Step} {iterator item : Temp}
    (hbind : ∀ s ∈ bind, s.IsStraight)
    (hadv : ∀ l, Advances l (Step.linearAll body l).1 (Step.linearAll body l).2)
    (hb : Simulates g ω true (Step.linearAll body) (Step.execAll ω body)) :
    Simulates g ω inLoop (Step.forLoop iterator item bind body none).linear
      ((Step.forLoop iterator item bind body none).exec ω) := by
  intro l rest n hcode hcheck _
  have hia := Step.straightAll_advances hbind l.openLoop.2
  have hba := hadv (Step.linearAll bind l.openLoop.2).2
  have hi : Simulates g ω true (Step.linearAll bind) (Step.execAll ω bind) := .straightAll hg hbind
  rw [Step.exec_forLoop]
  rw [Step.linear] at hcode hcheck ⊢
  simp only [List.append_assoc, List.cons_append, List.nil_append] at hcode ⊢
  have hhead := (List.suffix_cons _ _).trans hcode
  have hitem := (List.suffix_cons _ _).trans hhead
  have hbody := (List.suffix_append _ _).trans hitem
  have hlabel := (List.suffix_cons _ _).trans ((List.suffix_append _ _).trans hbody)
  have hstop := place_eq hg hlabel
  have hbinds := hi.follows (n := n) hitem (fun k hk => hcheck (hba.checkpoints hk)) rfl
    fun _ => rfl
  have hruns := hb.follows (n := n) hbody hcheck hia.innermost fun _ => rfl
  refine .loopAt (place_eq hg hcode) hstop decides_next (.seq hbinds hruns) ?_
  rw [hstop]
  exact Follows.skip (n := n) (e := g.exits l.innermost? (.running rest))

theorem forElse (hg : Numbered low high g.code) {bind body orelse : List Step}
    {iterator item : Temp} (hbind : ∀ s ∈ bind, s.IsStraight)
    (hadv : ∀ l, Advances l (Step.linearAll body l).1 (Step.linearAll body l).2)
    (hadvElse : ∀ l, Advances l (Step.linearAll orelse l).1 (Step.linearAll orelse l).2)
    (hb : Simulates g ω true (Step.linearAll body) (Step.execAll ω body))
    (ho : Simulates g ω inLoop (Step.linearAll orelse) (Step.execAll ω orelse)) :
    Simulates g ω inLoop (Step.forLoop iterator item bind body (some orelse)).linear
      ((Step.forLoop iterator item bind body (some orelse)).exec ω) := by
  intro l rest n hcode hcheck hloop
  have hia := Step.straightAll_advances hbind l.openLoop.2.fresh.2
  have hba := hadv (Step.linearAll bind l.openLoop.2.fresh.2).2
  have hoa := hadvElse
    (Step.linearAll body (Step.linearAll bind l.openLoop.2.fresh.2).2).2.closeLoop
  have hi : Simulates g ω true (Step.linearAll bind) (Step.execAll ω bind) := .straightAll hg hbind
  rw [Step.exec_forLoop]
  rw [Step.linear] at hcode hcheck ⊢
  simp only [List.append_assoc, List.cons_append, List.nil_append] at hcode ⊢
  have hhead := (List.suffix_cons _ _).trans hcode
  have hitem := (List.suffix_cons _ _).trans hhead
  have hbody := (List.suffix_append _ _).trans hitem
  have hlabel := (List.suffix_cons _ _).trans ((List.suffix_append _ _).trans hbody)
  have hside := (List.suffix_cons _ _).trans hlabel
  have hstop := place_eq hg ((List.suffix_cons _ _).trans ((List.suffix_append _ _).trans hside))
  have hbinds := hi.follows (n := n) hitem
    (fun k hk => hcheck (hoa.checkpoints (hba.checkpoints hk))) rfl fun _ => rfl
  have hruns := hb.follows (n := n) hbody (fun k hk => hcheck (hoa.checkpoints hk)) hia.innermost
    fun _ => rfl
  refine .loopAt (place_eq hg hcode) hstop decides_next (.seq hbinds hruns) ?_
  rw [place_eq hg hlabel]
  exact (ho.follows hside hcheck (hia.trans hba).closed.innermost hloop).redirect (.goto hstop)
    (.refl _) (.refl _)

end Simulates

/-- Steps as lowering puts them down are simulated by their linear code. -/
theorem simulates (hg : Numbered low high g.code) {inLoop : Bool} {s : Step}
    (h : s.WellFormed inLoop) : Simulates g ω inLoop s.linear (s.exec ω) := by
  have all {inLoop : Bool} {code : List Step} (hwf : ∀ s ∈ code, s.WellFormed inLoop)
      (hs : ∀ s ∈ code, Simulates g ω inLoop s.linear (s.exec ω)) :
      Simulates g ω inLoop (Step.linearAll code) (Step.execAll ω code) :=
    .all (fun s hs => (hwf s hs).advances) hs
  have advances {inLoop : Bool} {code : List Step} (hwf : ∀ s ∈ code, s.WellFormed inLoop) :=
    Step.linearAll_advances fun s hs => (hwf s hs).advances
  -- The body of a loop is simulated with the loop opened, its other side with the loop closed again.
  induction h with
  | straight hs => exact .straight hg hs
  | ret v =>
    have hlinear : (Step.ret v).linear = fun l => ([.ret v], l) := by
      funext l
      rw [Step.linear]
    rw [hlinear, Step.exec]
    exact .ret v
  | breakLoop =>
    have hlinear : Step.breakLoop.linear = fun l => (Instr.loopJump Loop.stop l, l) := by
      funext l
      rw [Step.linear]
    rw [hlinear, Step.exec]
    exact .loopJump (fun _ _ => rfl) (by decide)
  | continueLoop =>
    have hlinear : Step.continueLoop.linear = fun l => (Instr.loopJump Loop.start l, l) := by
      funext l
      rw [Step.linear]
    rw [hlinear, Step.exec]
    exact .loopJump (fun _ _ => rfl) (by decide)
  | @branch _ _ _ _ orelse htest hwfBody hwfElse ihBody ihElse =>
    cases orelse with
    | none => exact .branch hg htest (advances hwfBody) (all hwfBody ihBody)
    | some orelse =>
      exact .branchElse hg htest (advances hwfBody) (advances (hwfElse orelse rfl))
        (all hwfBody ihBody) (all (hwfElse orelse rfl) (ihElse orelse rfl))
  | @whileLoop _ _ _ _ orelse htest hwfBody hwfElse ihBody ihElse =>
    cases orelse with
    | none => exact .whileLoop hg htest (advances hwfBody) (all hwfBody ihBody)
    | some orelse =>
      exact .whileElse hg htest (advances hwfBody) (advances (hwfElse orelse rfl))
        (all hwfBody ihBody) (all (hwfElse orelse rfl) (ihElse orelse rfl))
  | @forLoop _ _ _ _ _ orelse hbind hwfBody hwfElse ihBody ihElse =>
    cases orelse with
    | none => exact .forLoop hg hbind (advances hwfBody) (all hwfBody ihBody)
    | some orelse =>
      exact .forElse hg hbind (advances hwfBody) (advances (hwfElse orelse rfl))
        (all hwfBody ihBody) (all (hwfElse orelse rfl) (ihElse orelse rfl))

/-- A goto program does what a run does, under an oracle. The run may be cut short after any number
of rounds, and the program may be looked at after any number of steps. -/
structure Realizes (g : GotoProgram) (ω : Oracle) (run : Run) : Prop where
  /-- The run does, if it is not cut short too early, whatever the program does. -/
  sound : ∀ k, ∃ n, (g.after ω k).trace <+: (run n []).2
  /-- The program does whatever the run does. -/
  complete : ∀ n, ∃ k, (g.after ω k).trace = (run n []).2
  /-- The program leaves the body where the run does. -/
  returns : ∀ h, (∃ k, (g.after ω k).point = .returned ∧ (g.after ω k).trace = h) ↔
    ∃ n, run n [] = (.left, h)
  /-- The program jumps to labels that it has, and does not come to the end of its code. -/
  safe : ∀ k, (g.after ω k).point ≠ .lost

/-- A program that has ended after `k` steps cannot be busy later on. So the run of `k` rounds is not
cut short, and the two end in the same state. -/
theorem ended_as_run {run : Run} (hrun : ∀ n, ∃ e m, Reached n e (run n []) m (g.after ω m))
    (hleaves : ∀ n, (run n []).1 = .left ∨ (run n []).1 = .cut) {k : Nat}
    (hk : ∀ rest, (g.after ω k).point ≠ .running rest) :
    (run k []).1 = .left ∧ (g.after ω k).trace = (run k []).2 ∧
      (g.after ω k).point = .returned := by
  obtain ⟨e, m, hm⟩ := hrun k
  rcases hleaves k with hleft | hcut
  · have hpoint := hm.returned hleft
    have hsame : g.after ω k = g.after ω m := by
      rcases Nat.le_total k m with h | h
      · exact (after_ended hk h).symm
      · exact after_ended (by rw [hpoint]; exact nofun) h
    rw [hsame]
    exact ⟨hleft, hm.trace, hpoint⟩
  · obtain ⟨hle, rest, hbusy⟩ := hm.cut hcut
    rw [after_ended hk hle] at hbusy
    exact absurd hbusy (hk rest)

/-- A program that is followed to the end of a body, or as far as one likes, realizes the run. -/
theorem realizes {run : Run} (hrun : ∀ n, ∃ e m, Reached n e (run n []) m (g.after ω m))
    (hleaves : ∀ n, (run n []).1 = .left ∨ (run n []).1 = .cut) : Realizes g ω run := by
  refine ⟨fun k => ⟨k, ?_⟩, ?_, ?_, ?_⟩
  · obtain ⟨e, m, hm⟩ := hrun k
    rw [← hm.trace]
    by_cases hle : k ≤ m
    · exact trace_after_mono g ω hle
    · have hleft := (hleaves k).resolve_right fun hcut => hle (hm.cut hcut).1
      have hpoint := hm.returned hleft
      have hsame : g.after ω k = g.after ω m :=
        after_ended (by rw [hpoint]; exact nofun) (Nat.le_of_not_le hle)
      exact hsame ▸ List.prefix_rfl
  · intro n
    obtain ⟨e, m, hm⟩ := hrun n
    exact ⟨m, hm.trace⟩
  · intro h
    constructor
    · rintro ⟨k, hpoint, rfl⟩
      obtain ⟨hleft, htrace, -⟩ := ended_as_run hrun hleaves (k := k) (by rw [hpoint]; exact nofun)
      exact ⟨k, Prod.ext hleft htrace.symm⟩
    · rintro ⟨n, hn⟩
      obtain ⟨e, m, hm⟩ := hrun n
      rw [hn] at hm
      exact ⟨m, (hm.ended nofun).2, hm.trace⟩
  · intro k hlost
    obtain ⟨-, -, hpoint⟩ := ended_as_run hrun hleaves (k := k) (by rw [hlost]; exact nofun)
    rw [hlost] at hpoint
    cases hpoint

/-- The goto program of well-formed code follows the run of the code from its begin. -/
theorem ofBody_follows {body : List Step} (h : ∀ s ∈ body, s.WellFormed false) (n : Nat) :
    ∃ e m, Reached n e (Step.execAll ω body n []) m ((ofBody body).after ω m) := by
  have hadv := Step.linearAll_advances (fun s hs => (h s hs).advances) {}
  have hsim : Simulates (ofBody body) ω false (Step.linearAll body) (Step.execAll ω body) :=
    .all (fun s hs => (h s hs).advances) fun s hs => simulates hadv.numbered (h s hs)
  have hcode : (Step.linearAll body {}).1 ++ [] <:+ (ofBody body).code := by
    rw [List.append_nil]
    exact List.suffix_rfl
  have hstart : (ofBody body).entry.point = .running ((Step.linearAll body {}).1 ++ []) := by
    rw [List.append_nil]
    rfl
  obtain ⟨m, hm⟩ := hsim {} [] n hcode (fun _ hk => hk) nofun _ hstart rfl
  exact ⟨_, m, hm⟩

end GotoProgram

end Code

open Goward.Build Goward.Code

/-- Lowering the control flow of a body to labels and jumps preserves its meaning. Whenever the body
of a module, a class or a function compiles, its statements have a run, and the goto program of its
code realizes this run, however the oracle answers. -/
theorem control_flow_preserved (cx : Context) (id : Nat) (returnsNone : Bool) (body : List Stmt)
    (ω : Oracle) {t : ScopeTree} {r : Built (List Step)}
    (h : (bodyWithEnd returnsNone (lowerBody cx id false body)).run t = .ok r) :
    ∃ run, Ends (interpretWhole cx id ω returnsNone body) t run r.tree ∧
      (GotoProgram.ofBody r.value).Realizes ω run := by
  obtain ⟨whole, hwhole, rfl⟩ := run_codeOf_ok.mp h
  obtain ⟨inner, hinner, last, hlast, rfl⟩ := run_bind_ok.mp hwhole
  cases hlast
  obtain ⟨hwf, hends⟩ := Stmt.interpretBody_renders cx id ω false body t inner hinner
  have hconfined : (Step.execAll ω inner.code).Confined :=
    Step.execAll_confined fun s hs => (hwf s hs).confined rfl
  have hbody : ∀ s ∈ inner.code ++ [.ret (if returnsNone then some .noneObject else none)],
      s.WellFormed false := by
    intro s hs
    rcases List.mem_append.mp hs with hs | hs
    · exact hwf s hs
    · obtain rfl := List.mem_singleton.mp hs
      exact .ret _
  refine ⟨_, hends.bind (.pure _ _), GotoProgram.realizes (fun n => ?_) (hconfined.leaves _ · [])⟩
  have hfollows := GotoProgram.ofBody_follows (ω := ω) hbody n
  rw [Step.execAll_append, Step.execAll_single, Step.exec] at hfollows
  exact hfollows

/-- The body `for a in f: if a: break; yield a` with `g` for when there are no more items. -/
def Stmt.yieldingLoop : List Stmt :=
  [.mk .nowhere (.forEach (.name "a") (.name "f")
    [.mk .nowhere (.branch (.name "a") [.mk .nowhere .breakLoop] []),
      .mk .nowhere (.expr (.yield (some (.name "a"))))]
    [.mk .nowhere (.expr (.name "g"))])]

/-- The tree of a module in which a generator with the local name `a` is entered. -/
def ScopeTree.inGenerator : ScopeTree :=
  ((ofOptions {}).pushFunction moduleId "h" ⟨⟨[⟨"a", .local⟩]⟩, true⟩).2

theorem control_flow_preserved_for :
    ∃ r, (bodyWithEnd false (lowerBody { options := {}, source := none } 1 false
        Stmt.yieldingLoop)).run .inGenerator = .ok r ∧
      ∀ ω, ∃ run, Ends (interpretWhole { options := {}, source := none } 1 ω false
        Stmt.yieldingLoop) .inGenerator run r.tree ∧
        (GotoProgram.ofBody r.value).Realizes ω run := by
  have hok : ((bodyWithEnd false (lowerBody { options := {}, source := none } 1 false
      Stmt.yieldingLoop)).run .inGenerator).toBool = true := by decide +kernel
  cases hr : (bodyWithEnd false (lowerBody { options := {}, source := none } 1 false
      Stmt.yieldingLoop)).run .inGenerator with
  | error e =>
    rw [hr] at hok
    cases hok
  | ok r => exact ⟨r, rfl, fun ω => control_flow_preserved _ _ _ _ ω hr⟩

end Goward
