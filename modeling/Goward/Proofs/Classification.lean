import Goward.Classification

/-!
# What classification knows

Classification takes the events of a body in turn. Each event adds its name or finds it there, and
none takes a name away, so every name that an event binds is known at the end. It fails only because
of a repeated parameter or a `global` declaration that comes too late.
-/

namespace Goward

/-- A reason for which a body cannot be classified. -/
def Cause.FromClassification : Cause → Prop
  | .duplicateArgument _ | .parameterAndGlobal _ | .usedPriorToGlobal _ => True
  | .deleteNonexistentLocal _ | .unclassifiedName _ | .tempNotInUse _ | .returnOutsideFunction
  | .loopControlOutsideLoop _ | .unsupported _ => False

theorem Cause.FromClassification.ne {c d : Cause} (h : c.FromClassification)
    (hd : ¬d.FromClassification) : c ≠ d := by
  rintro rfl
  exact hd h

/-- The name that an event is about. -/
def Event.name : Event → String
  | bind x | global x _ => x

namespace VarMap

variable {m m' : VarMap} {x y : String}

/-- The map has a record of a name. -/
def Knows (m : VarMap) (x : String) : Prop := (m.find? x).isSome

theorem knows_iff : m.Knows x ↔ ∃ v ∈ m.toList, v.name = x := by
  rw [Knows, find?, Option.isSome_map, List.find?_isSome]
  simp only [beq_iff_eq]

theorem knows_add {kind : VarKind} : (m.add y kind).Knows x ↔ m.Knows x ∨ x = y := by
  rw [knows_iff, knows_iff, add]
  simp [or_and_right, exists_or, eq_comm]

theorem knows_of_observe {e : Event} (h : m.observe e = .ok m') (hx : m.Knows x) :
    m'.Knows x := by
  unfold observe at h
  split at h
  · split at h
    · cases h
      exact hx
    · cases h
      exact knows_add.mpr (.inl hx)
  · split at h
    · cases h
    · cases h
    · cases h
      exact hx
    · cases h
      exact knows_add.mpr (.inl hx)

theorem knows_of_observe_bind (h : m.observe (.bind x) = .ok m') : m'.Knows x := by
  rw [observe, Except.ok.injEq] at h
  rw [← h]
  split
  · rename_i hx
    exact hx
  · exact knows_add.mpr (.inr rfl)

theorem observe_error {event : Event} {e : Error} (h : m.observe event = .error e) :
    e.cause.FromClassification := by
  unfold observe at h
  split at h
  · cases h
  · split at h <;> cases h <;> trivial

theorem observeAll_cons_ok {e : Event} {rest : List Event} :
    m.observeAll (e :: rest) = .ok m' ↔ ∃ n, m.observe e = .ok n ∧ n.observeAll rest = .ok m' := by
  rw [observeAll]
  cases m.observe e <;> simp [Bind.bind, Except.bind]

theorem observeAll_error {events : List Event} {e : Error} :
    ∀ {m : VarMap}, m.observeAll events = .error e → e.cause.FromClassification := by
  induction events with
  | nil =>
    intro m h
    cases h
  | cons event rest ih =>
    intro m h
    rw [observeAll] at h
    cases hm : m.observe event with
    | ok n => exact ih (by simpa [hm, Bind.bind, Except.bind] using h)
    | error e' =>
      have he : e' = e := by simpa [hm, Bind.bind, Except.bind] using h
      exact he ▸ observe_error hm

theorem knows_of_observeAll {events : List Event} :
    ∀ {m : VarMap}, m.observeAll events = .ok m' → m.Knows x → m'.Knows x := by
  induction events with
  | nil =>
    intro m h hx
    rw [observeAll, Except.ok.injEq] at h
    exact h ▸ hx
  | cons e rest ih =>
    intro m h hx
    obtain ⟨n, he, hrest⟩ := observeAll_cons_ok.mp h
    exact ih hrest (knows_of_observe he hx)

/-- After all events of a body, every name that one of them binds is known. -/
theorem observeAll_knows {events : List Event} :
    ∀ {m : VarMap}, m.observeAll events = .ok m' → .bind x ∈ events → m'.Knows x := by
  induction events with
  | nil =>
    intro m _ hx
    cases hx
  | cons e rest ih =>
    intro m h hx
    obtain ⟨n, he, hrest⟩ := observeAll_cons_ok.mp h
    rcases List.mem_cons.mp hx with rfl | hx
    · exact knows_of_observeAll hrest (knows_of_observe_bind he)
    · exact ih hrest hx

theorem addParams_error {ps : List Parameter} {e : Error} :
    ∀ {m : VarMap} {index : Nat}, m.addParams index ps = .error e →
      e.cause.FromClassification := by
  induction ps with
  | nil =>
    intro m index h
    cases h
  | cons p rest ih =>
    intro m index h
    unfold addParams at h
    split at h
    · cases h
      trivial
    · exact ih h

/-! ### Distinct names -/

/-- Each name is recorded once. -/
def Distinct (m : VarMap) : Prop := (m.toList.map (·.name)).Nodup

theorem Distinct.empty : Distinct {} := List.nodup_nil

theorem distinct_add {kind : VarKind} (h : m.Distinct) (hx : ¬m.Knows y) :
    (m.add y kind).Distinct := by
  have hnew : ∀ v ∈ m.toList, v.name ≠ y := fun v hv hname => hx (knows_iff.mpr ⟨v, hv, hname⟩)
  simpa [Distinct, add, List.nodup_append] using ⟨h, hnew⟩

theorem distinct_of_observe {e : Event} (hm : m.Distinct) (h : m.observe e = .ok m') :
    m'.Distinct := by
  unfold observe at h
  split at h
  · split at h
    · cases h
      exact hm
    · next hx =>
      cases h
      exact distinct_add hm hx
  · split at h
    · cases h
    · cases h
    · cases h
      exact hm
    · next hx =>
      cases h
      exact distinct_add hm (by simp [Knows, hx])

theorem distinct_of_observeAll {events : List Event} :
    ∀ {m : VarMap}, m.Distinct → m.observeAll events = .ok m' → m'.Distinct := by
  induction events with
  | nil =>
    intro m hm h
    rw [observeAll, Except.ok.injEq] at h
    exact h ▸ hm
  | cons e rest ih =>
    intro m hm h
    obtain ⟨n, he, hrest⟩ := observeAll_cons_ok.mp h
    exact ih (distinct_of_observe hm he) hrest

theorem distinct_of_addParams {ps : List Parameter} :
    ∀ {m : VarMap} {index : Nat}, m.Distinct → m.addParams index ps = .ok m' → m'.Distinct := by
  induction ps with
  | nil =>
    intro m index hm h
    rw [addParams, Except.ok.injEq] at h
    exact h ▸ hm
  | cons p rest ih =>
    intro m index hm h
    unfold addParams at h
    split at h
    · cases h
    · next hp => exact ih (distinct_add hm hp) h

theorem name_of_observe {e : Event} (h : m.observe e = .ok m') {v : Variable}
    (hv : v ∈ m'.toList) : v ∈ m.toList ∨ v.name = e.name := by
  have hadd : ∀ {kind : VarKind} {x : String}, v ∈ (m.add x kind).toList →
      v ∈ m.toList ∨ v.name = x := by
    intro kind x hv
    refine (List.mem_append.mp hv).imp_right fun hv => ?_
    rw [List.mem_singleton.mp hv]
  unfold observe at h
  split at h
  · split at h
    · cases h
      exact .inl hv
    · cases h
      exact hadd hv
  · split at h
    · cases h
    · cases h
    · cases h
      exact .inl hv
    · cases h
      exact hadd hv

theorem name_of_observeAll {events : List Event} {v : Variable} :
    ∀ {m : VarMap}, m.observeAll events = .ok m' → v ∈ m'.toList →
      v ∈ m.toList ∨ ∃ e ∈ events, v.name = e.name := by
  induction events with
  | nil =>
    intro m h hv
    rw [observeAll, Except.ok.injEq] at h
    exact .inl (h ▸ hv)
  | cons e rest ih =>
    intro m h hv
    obtain ⟨n, he, hrest⟩ := observeAll_cons_ok.mp h
    rcases ih hrest hv with hv | ⟨e', he', hname⟩
    · exact (name_of_observe he hv).imp_right fun hname => ⟨e, List.mem_cons_self, hname⟩
    · exact .inr ⟨e', List.mem_cons_of_mem _ he', hname⟩

theorem name_of_addParams {ps : List Parameter} {v : Variable} :
    ∀ {m : VarMap} {index : Nat}, m.addParams index ps = .ok m' → v ∈ m'.toList →
      v ∈ m.toList ∨ v.name ∈ ps.map (·.name) := by
  induction ps with
  | nil =>
    intro m index h hv
    rw [addParams, Except.ok.injEq] at h
    exact .inl (h ▸ hv)
  | cons p rest ih =>
    intro m index h hv
    unfold addParams at h
    split at h
    · cases h
    · rcases ih h hv with hv | hv
      · refine (List.mem_append.mp hv).imp_right fun hv => ?_
        rw [List.mem_singleton.mp hv]
        exact List.mem_cons_self
      · exact .inr (List.mem_cons_of_mem _ hv)

end VarMap

section Function

variable {params : Parameters} {body : List Stmt}

theorem classifyFunction_ok {f : FunctionVars} (h : classifyFunction params body = .ok f) :
    ∃ args : VarMap, VarMap.addParams {} 0 params.toList = .ok args ∧
      args.observeAll (Stmt.eventsOfBody body) = .ok f.vars ∧
      f.isGenerator = Stmt.anyYields body := by
  unfold classifyFunction at h
  cases hargs : VarMap.addParams {} 0 params.toList with
  | error e => simp [hargs, Bind.bind, Except.bind] at h
  | ok args =>
    cases hvars : args.observeAll (Stmt.eventsOfBody body) with
    | error e => simp [hargs, hvars, Bind.bind, Except.bind] at h
    | ok vars =>
      simp [hargs, hvars, Bind.bind, Except.bind, pure, Except.pure] at h
      refine ⟨args, rfl, ?_, ?_⟩
      · rw [hvars, ← h]
      · rw [← h]

theorem classifyFunction_distinct {f : FunctionVars} (h : classifyFunction params body = .ok f) :
    f.vars.Distinct := by
  obtain ⟨args, hargs, hvars, -⟩ := classifyFunction_ok h
  exact VarMap.distinct_of_observeAll (VarMap.distinct_of_addParams .empty hargs) hvars

/-- Every name that a function has a record of is that of a parameter or of an event of its body. -/
theorem classifyFunction_name {f : FunctionVars} (h : classifyFunction params body = .ok f)
    {v : Variable} (hv : v ∈ f.vars.toList) :
    v.name ∈ params.toList.map (·.name) ∨ ∃ e ∈ Stmt.eventsOfBody body, v.name = e.name := by
  obtain ⟨args, hargs, hvars, -⟩ := classifyFunction_ok h
  rcases VarMap.name_of_observeAll hvars hv with hv | hv
  · exact .inl ((VarMap.name_of_addParams hargs hv).resolve_left List.not_mem_nil)
  · exact .inr hv

theorem classifyFunction_error {e : Error} (h : classifyFunction params body = .error e) :
    e.cause.FromClassification := by
  unfold classifyFunction at h
  cases hargs : VarMap.addParams {} 0 params.toList with
  | error e' =>
    have he : e' = e := by simpa [hargs, Bind.bind, Except.bind] using h
    exact he ▸ VarMap.addParams_error hargs
  | ok args =>
    cases hvars : args.observeAll (Stmt.eventsOfBody body) with
    | error e' =>
      have he : e' = e := by simpa [hargs, hvars, Bind.bind, Except.bind] using h
      exact he ▸ VarMap.observeAll_error hvars
    | ok vars => simp [hargs, hvars, Bind.bind, Except.bind, pure, Except.pure] at h

end Function

end Goward
