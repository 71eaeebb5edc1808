import Mathlib.Data.List.Induction
import Mathlib.Data.List.Nodup
import Goward.Proofs.Classification

/-!
# Rules of binding

Classification goes through the parameters and then through the events of a body, with a map of the
names that it knows so far. What comes out can be said without the map: every name lives where its
first event puts it, a `global` declaration is in conflict with a parameter or a first event that
binds the name, and the first fault in source order is the one that is reported.
-/

namespace Goward

namespace Event

/-- Where a name lives if the event is the first one about it. -/
def kind : Event → VarKind
  | bind _ => .local
  | global _ _ => .global

/-- The first event about a name. -/
def first? (x : String) (events : List Event) : Option Event := events.find? (·.name == x)

/-- The events that are the first ones about their names. -/
def firsts : List Event → List Event
  | [] => []
  | e :: rest => e :: (firsts rest).filter (·.name != e.name)

/-- The error of an event among all events of a body: it declares a name global that is the name of
a parameter, or that is bound by the first event about it. -/
def conflict? (params : List String) (events : List Event) : Event → Option Error
  | bind _ => none
  | global x span =>
    if x ∈ params then some ⟨.parameterAndGlobal x, some span⟩
    else if first? x events = some (bind x) then some ⟨.usedPriorToGlobal x, some span⟩
    else none

end Event

/-- The parameters, each with the position of its argument. -/
def Parameter.records (params : List Parameter) : List Variable :=
  params.zipIdx.map fun p => ⟨p.1.name, .param p.2⟩

/-- The names that are bound by parameters and events: the parameters in order, and then every other
name in the order of the first events. -/
def boundVariables (params : List Parameter) (events : List Event) : List Variable :=
  Parameter.records params ++
    ((Event.firsts events).filter (·.name ∉ params.map (·.name))).map fun e => ⟨e.name, e.kind⟩

/-- The error reports the first parameter that has the name of an earlier one. -/
def ReportsRepeated (params : List Parameter) (e : Error) : Prop :=
  ∃ before p after, params = before ++ p :: after ∧ (before.map (·.name)).Nodup ∧
    p.name ∈ before.map (·.name) ∧ e = ⟨.duplicateArgument p.name, some p.span⟩

/-- The error reports the first event that is in conflict. -/
def ReportsConflict (params : List Parameter) (events : List Event) (e : Error) : Prop :=
  ∃ before event after, events = before ++ event :: after ∧
    (∀ d ∈ before, d.conflict? (params.map (·.name)) events = none) ∧
    event.conflict? (params.map (·.name)) events = some e

/-- The outcome of classification that the rules demand for parameters and the events of a body. -/
structure FollowsRules (params : List Parameter) (events : List Event)
    (outcome : Except Error VarMap) : Prop where
  error_iff : ∀ e, outcome = .error e ↔ ReportsRepeated params e ∨
    (params.map (·.name)).Nodup ∧ ReportsConflict params events e
  records : ∀ m, outcome = .ok m → m.toList = boundVariables params events
  distinct : ∀ m, outcome = .ok m → m.Distinct

namespace Event

variable {x : String} {e : Event} {events : List Event}

theorem first?_cons {d : Event} :
    first? x (d :: events) = if d.name == x then some d else first? x events := by
  rw [first?, List.find?_cons, ← first?]
  cases d.name == x <;> rfl

theorem firsts_concat : firsts (events ++ [e]) =
    firsts events ++ if (first? e.name events).isSome then [] else [e] := by
  induction events with
  | nil => simp [firsts, first?]
  | cons d rest ih =>
    rw [List.cons_append, firsts, firsts, ih, List.filter_append, List.cons_append, first?_cons]
    cases hd : d.name == e.name with
    | true =>
      -- The event is filtered out, or it was not there in the first place.
      have hnone : (if (first? e.name rest).isSome then [] else [e]).filter (·.name != d.name) =
          [] := by
        split <;> simp [beq_iff_eq.mp hd]
      rw [hnone, if_pos rfl, Option.isSome_some, if_pos rfl]
    | false =>
      have hne : e.name ≠ d.name := Ne.symm (beq_eq_false_iff_ne.mp hd)
      have hkept : (if (first? e.name rest).isSome then [] else [e]).filter (·.name != d.name) =
          if (first? e.name rest).isSome then [] else [e] := by
        split <;> simp [hne]
      rw [hkept, if_neg Bool.false_ne_true]

/-- A filter that keeps every event about a name makes no difference to the first one. -/
theorem find?_filter {p : Event → Bool} (hp : ∀ d : Event, d.name = x → p d = true) :
    (events.filter p).find? (·.name == x) = events.find? (·.name == x) := by
  rw [List.find?_filter]
  refine congrArg (List.find? · _) (funext fun d => ?_)
  by_cases hd : d.name = x
  · simp [hp d hd, hd]
  · simp [hd]

theorem find?_firsts : (firsts events).find? (·.name == x) = first? x events := by
  induction events with
  | nil => rfl
  | cons d rest ih =>
    rw [firsts, first?_cons, List.find?_cons]
    cases hd : d.name == x with
    | true => rfl
    | false =>
      have hkept : ∀ a : Event, a.name = x → (a.name != d.name) = true := by
        rintro a rfl
        exact bne_iff_ne.mpr (Ne.symm (beq_eq_false_iff_ne.mp hd))
      rw [find?_filter hkept, if_neg Bool.false_ne_true, ← ih]

/-- An event is the first one about its name unless there is one before it. -/
theorem first?_concat : first? e.name (events ++ [e]) = some ((first? e.name events).getD e) := by
  rw [first?, List.find?_append, List.find?_singleton, if_pos (beq_self_eq_true _), ← first?]
  cases first? e.name events <;> rfl

/-- What comes behind an event makes no difference to its conflict. -/
theorem conflict?_behind {params : List String} {rest : List Event} :
    e.conflict? params (events ++ e :: rest) = e.conflict? params (events ++ [e]) := by
  cases e with
  | bind y => rfl
  | global y span =>
    have hfirst : first? y (events ++ global y span :: rest) =
        first? y (events ++ [global y span]) := by
      simp [first?, List.find?_append, name]
    rw [conflict?, conflict?, hfirst]

end Event

namespace VarMap

variable {params before rest : List Parameter} {p : Parameter} {x : String}

theorem names_records : (Parameter.records params).map (·.name) = params.map (·.name) := by
  have hcomp : (fun p : Parameter × Nat => p.1.name) = Parameter.name ∘ Prod.fst := rfl
  rw [Parameter.records, List.map_map]
  calc params.zipIdx.map (fun p => p.1.name)
      = (params.zipIdx.map Prod.fst).map (·.name) := by rw [hcomp, List.map_map]
    _ = params.map (·.name) := by rw [List.zipIdx_map_fst]

theorem knows_records :
    (⟨Parameter.records params⟩ : VarMap).Knows x ↔ x ∈ params.map (·.name) := by
  rw [knows_iff, ← names_records, List.mem_map]

theorem addParams_cons (hp : p.name ∉ before.map (·.name)) :
    addParams ⟨Parameter.records before⟩ before.length (p :: rest) =
      addParams ⟨Parameter.records (before ++ [p])⟩ (before ++ [p]).length rest := by
  have hunknown : ¬((⟨Parameter.records before⟩ : VarMap).find? p.name).isSome :=
    fun h => hp (knows_records.mp h)
  have hadd : (⟨Parameter.records before⟩ : VarMap).add p.name (.param before.length) =
      ⟨Parameter.records (before ++ [p])⟩ := by
    simp [add, Parameter.records, List.zipIdx_append]
  rw [addParams, if_neg hunknown, hadd, List.length_append, List.length_singleton]

/-- Parameters with different names are added one after another. -/
theorem addParams_append {more : List Parameter} (h : ((before ++ rest).map (·.name)).Nodup) :
    addParams ⟨Parameter.records before⟩ before.length (rest ++ more) =
      addParams ⟨Parameter.records (before ++ rest)⟩ (before ++ rest).length more := by
  induction rest generalizing before with
  | nil => rw [List.append_nil, List.nil_append]
  | cons p rest ih =>
    have hnew : p.name ∉ before.map (·.name) := by
      rw [List.map_append, List.nodup_append] at h
      exact fun hp => h.2.2 _ hp _ List.mem_cons_self rfl
    have hbehind : before ++ [p] ++ rest = before ++ p :: rest := by simp
    rw [List.cons_append, addParams_cons hnew, ih (hbehind ▸ h), hbehind]

theorem addParams_ok (h : (params.map (·.name)).Nodup) :
    addParams {} 0 params = .ok ⟨Parameter.records params⟩ := by
  have hall : addParams {} 0 (params ++ []) =
      addParams ⟨Parameter.records params⟩ params.length [] :=
    @addParams_append [] params [] h
  rwa [List.append_nil] at hall

/-- The first parameter that has the name of an earlier one is reported. -/
theorem addParams_repeated (h : (before.map (·.name)).Nodup) (hp : p.name ∈ before.map (·.name)) :
    addParams {} 0 (before ++ p :: rest) = .error ⟨.duplicateArgument p.name, some p.span⟩ := by
  have hall : addParams {} 0 (before ++ p :: rest) =
      addParams ⟨Parameter.records before⟩ before.length (p :: rest) :=
    @addParams_append [] before (p :: rest) h
  have hknown : ((⟨Parameter.records before⟩ : VarMap).find? p.name).isSome :=
    knows_records.mpr hp
  rw [hall, addParams, if_pos hknown]

end VarMap

/-- Either all parameters have different names or there is a first one that repeats a name. -/
theorem Parameter.nodup_or_repeated (params : List Parameter) :
    (params.map (·.name)).Nodup ∨ ∃ before p after, params = before ++ p :: after ∧
      (before.map (·.name)).Nodup ∧ p.name ∈ before.map (·.name) := by
  induction params using List.reverseRecOn with
  | nil => exact .inl List.nodup_nil
  | append_singleton params p ih =>
    rcases ih with hnodup | ⟨before, q, after, rfl, hnodup, hq⟩
    · by_cases hp : p.name ∈ params.map (·.name)
      · exact .inr ⟨params, p, [], rfl, hnodup, hp⟩
      · refine .inl ?_
        rw [List.map_append, List.map_singleton, ← List.concat_eq_append]
        exact hnodup.concat hp
    · exact .inr ⟨before, q, after ++ [p], by simp, hnodup, hq⟩

/-! ### Events -/

namespace VarMap

variable {params : List Parameter} {rest : List Event} {e : Event} {x : String}
  (events : List Event)

/-- What is known after some events, about the name of a parameter. -/
theorem find?_parameter (hx : x ∈ params.map (·.name)) :
    ∃ i, (⟨boundVariables params events⟩ : VarMap).find? x = some (.param i) := by
  have hsome : ((Parameter.records params).find? (·.name == x)).isSome := by
    have h := knows_records.mpr hx
    rwa [Knows, find?, Option.isSome_map] at h
  obtain ⟨v, hv⟩ := Option.isSome_iff_exists.mp hsome
  obtain ⟨q, -, rfl⟩ := List.mem_map.mp (List.mem_of_find?_eq_some hv)
  refine ⟨q.2, ?_⟩
  rw [find?, boundVariables, List.find?_append, hv]
  rfl

/-- What is known after some events, about any other name. -/
theorem find?_event (hx : x ∉ params.map (·.name)) :
    (⟨boundVariables params events⟩ : VarMap).find? x = (Event.first? x events).map (·.kind) := by
  have hnone : (Parameter.records params).find? (·.name == x) = none := by
    refine List.find?_eq_none.mpr fun v hv hname => hx ?_
    rw [← names_records, List.mem_map]
    exact ⟨v, hv, beq_iff_eq.mp hname⟩
  have hkept : ∀ d : Event, d.name = x → decide (d.name ∉ params.map (·.name)) = true := by
    rintro d rfl
    exact decide_eq_true hx
  rw [find?, boundVariables, List.find?_append, hnone, Option.none_or, List.find?_map,
    Option.map_map]
  exact congrArg (Option.map _) ((Event.find?_filter hkept).trans Event.find?_firsts)

/-- An event adds its name to the bound ones if neither a parameter nor an earlier event has it. -/
theorem boundVariables_concat : boundVariables params (events ++ [e]) =
    boundVariables params events ++
      if e.name ∈ params.map (·.name) ∨ (Event.first? e.name events).isSome then []
      else [⟨e.name, e.kind⟩] := by
  rw [boundVariables, boundVariables, Event.firsts_concat, List.filter_append, List.map_append,
    ← List.append_assoc]
  congr 1
  by_cases hevent : (Event.first? e.name events).isSome
  · rw [if_pos hevent, if_pos (.inr hevent)]
    rfl
  · rw [if_neg hevent]
    by_cases hparam : e.name ∈ params.map (·.name)
    · rw [if_pos (.inl hparam), List.filter_singleton]
      simp [hparam]
    · rw [if_neg (not_or.mpr ⟨hparam, hevent⟩), List.filter_singleton]
      simp [hparam]

/-- After one more event the names are those that the rules say, unless the event is in conflict. -/
theorem observe_rules :
    (⟨boundVariables params events⟩ : VarMap).observe e =
      match e.conflict? (params.map (·.name)) (events ++ [e]) with
      | some err => .error err
      | none => .ok ⟨boundVariables params (events ++ [e])⟩ := by
  have hfirst := @Event.first?_concat e events
  rw [boundVariables_concat]
  by_cases hparam : e.name ∈ params.map (·.name)
  · obtain ⟨i, hi⟩ := find?_parameter events hparam
    cases e with
    | bind x =>
      rw [Event.name] at hi hparam
      simp [observe, hi, hparam, Event.conflict?, Event.name]
    | global x span =>
      rw [Event.name] at hi hparam
      simp [observe, hi, hparam, Event.conflict?]
  · have hfind := find?_event events hparam
    cases hd : Event.first? e.name events with
    | none =>
      rw [hd] at hfind hfirst
      cases e with
      | bind x =>
        rw [Event.name] at hfind hparam hfirst
        simp [observe, hfind, hparam, Event.conflict?, Event.name, Event.kind, add]
      | global x span =>
        rw [Event.name] at hfind hparam hfirst
        simp [observe, hfind, hparam, hfirst, Event.conflict?, Event.name, Event.kind, add]
    | some d =>
      have hname : d.name = e.name := by
        have h := List.find?_some hd
        exact beq_iff_eq.mp h
      rw [hd] at hfind hfirst
      cases e with
      | bind x =>
        rw [Event.name] at hfind hparam hfirst
        simp [observe, hfind, Event.conflict?]
      | global x span =>
        rw [Event.name] at hfind hparam hfirst hname
        cases d with
        | bind y =>
          obtain rfl : y = x := hname
          simp [observe, hfind, hparam, hfirst, Event.conflict?, Event.kind]
        | global y span' =>
          simp [observe, hfind, hparam, hfirst, Event.conflict?, Event.kind]

/-- After all events the names are those that the rules say, unless some event is in conflict. -/
theorem observeAll_rules :
    (⟨boundVariables params events⟩ : VarMap).observeAll rest =
      match rest.findSome? (·.conflict? (params.map (·.name)) (events ++ rest)) with
      | some err => .error err
      | none => .ok ⟨boundVariables params (events ++ rest)⟩ := by
  induction rest generalizing events with
  | nil => rw [List.append_nil, observeAll, List.findSome?_nil]
  | cons e rest ih =>
    have hbehind : events ++ [e] ++ rest = events ++ e :: rest := by simp
    rw [observeAll, observe_rules, List.findSome?_cons, ← @Event.conflict?_behind e events _ rest]
    cases e.conflict? (params.map (·.name)) (events ++ e :: rest) with
    | some err => rfl
    | none =>
      refine Eq.trans (ih (events ++ [e])) ?_
      rw [hbehind]

end VarMap

theorem reportsConflict_iff {params : List Parameter} {events : List Event} {e : Error} :
    ReportsConflict params events e ↔
      events.findSome? (·.conflict? (params.map (·.name)) events) = some e := by
  rw [List.findSome?_eq_some_iff]
  constructor
  · rintro ⟨before, event, after, hsplit, hnone, hsome⟩
    exact ⟨before, event, after, hsplit, hsome, hnone⟩
  · rintro ⟨before, event, after, hsplit, hsome, hnone⟩
    exact ⟨before, event, after, hsplit, hnone, hsome⟩

theorem ReportsRepeated.not_nodup {params : List Parameter} {e : Error}
    (h : ReportsRepeated params e) : ¬(params.map (·.name)).Nodup := by
  obtain ⟨before, p, after, rfl, -, hp, -⟩ := h
  intro hnodup
  rw [List.map_append, List.nodup_append] at hnodup
  exact hnodup.2.2 _ hp _ List.mem_cons_self rfl

section Outcome

variable {params : List Parameter} {events : List Event}

theorem outcome_distinct {m : VarMap}
    (h : (VarMap.addParams {} 0 params >>= (·.observeAll events)) = .ok m) : m.Distinct := by
  cases hargs : VarMap.addParams {} 0 params with
  | error e =>
    rw [hargs] at h
    cases h
  | ok args =>
    rw [hargs] at h
    exact VarMap.distinct_of_observeAll (VarMap.distinct_of_addParams .empty hargs) h

/-- A repeated parameter decides, whatever the body does. -/
theorem followsRules_of_repeated (h : ∃ e, ReportsRepeated params e) :
    FollowsRules params events (VarMap.addParams {} 0 params >>= (·.observeAll events)) := by
  have hreport : ∀ e, ReportsRepeated params e →
      (VarMap.addParams {} 0 params >>= (·.observeAll events)) = .error e := by
    rintro e ⟨before, p, after, rfl, hbefore, hp, rfl⟩
    exact congrArg (· >>= _) (VarMap.addParams_repeated hbefore hp)
  obtain ⟨e, he⟩ := h
  refine ⟨fun e' => ⟨fun h => ?_, ?_⟩, fun m hm => ?_, fun _ => outcome_distinct⟩
  · rw [hreport e he] at h
    exact .inl (Except.error.inj h ▸ he)
  · rintro (he' | ⟨hnodup, -⟩)
    · exact hreport e' he'
    · exact absurd hnodup he.not_nodup
  · rw [hreport e he] at hm
    cases hm

/-- Where no parameter repeats another one, the first conflict decides. -/
theorem followsRules_of_nodup (h : (params.map (·.name)).Nodup) :
    FollowsRules params events (VarMap.addParams {} 0 params >>= (·.observeAll events)) := by
  have hstart : boundVariables params [] = Parameter.records params := List.append_nil _
  have houtcome : (VarMap.addParams {} 0 params >>= (·.observeAll events)) =
      match events.findSome? (·.conflict? (params.map (·.name)) events) with
      | some err => .error err
      | none => .ok ⟨boundVariables params events⟩ := by
    rw [VarMap.addParams_ok h, ← hstart]
    exact VarMap.observeAll_rules []
  refine ⟨fun e => ?_, fun m hm => ?_, fun _ => outcome_distinct⟩
  · rw [houtcome, reportsConflict_iff]
    have hrepeated : ¬ReportsRepeated params e := fun hr => hr.not_nodup h
    cases events.findSome? (·.conflict? (params.map (·.name)) events) with
    | some err => simp [hrepeated, h]
    | none => simp [hrepeated]
  · rw [houtcome] at hm
    split at hm
    · cases hm
    · cases hm
      rfl

/-- Going through the parameters and then through the events has the outcome that the rules
demand. -/
theorem followsRules (params : List Parameter) (events : List Event) :
    FollowsRules params events (VarMap.addParams {} 0 params >>= (·.observeAll events)) := by
  rcases Parameter.nodup_or_repeated params with hnodup | ⟨before, p, after, hsplit, hbefore, hp⟩
  · exact followsRules_of_nodup hnodup
  · exact followsRules_of_repeated ⟨_, before, p, after, hsplit, hbefore, hp, rfl⟩

end Outcome

theorem classifyFunction_vars (params : Parameters) (body : List Stmt) :
    (classifyFunction params body).map (·.vars) =
      VarMap.addParams {} 0 params.toList >>= (·.observeAll (Stmt.eventsOfBody body)) := by
  unfold classifyFunction
  cases VarMap.addParams {} 0 params.toList with
  | error e => rfl
  | ok args =>
    cases hvars : args.observeAll (Stmt.eventsOfBody body) <;>
      simp [hvars, Bind.bind, Except.bind, Except.map, pure, Except.pure]

/-- Classification follows the rules of binding. It fails exactly if a parameter repeats an earlier
one or, failing that, if an event is in conflict, and it reports the first of them. Otherwise the
map holds the parameters at their positions and then every other name where its first event puts
it, each name once. A class body has no parameters. -/
theorem classification_follows_rules :
    (∀ params body, FollowsRules params.toList (Stmt.eventsOfBody body)
      ((classifyFunction params body).map (·.vars))) ∧
    ∀ body, FollowsRules [] (Stmt.eventsOfBody body) (classifyClass body) := by
  refine ⟨fun params body => ?_, fun body => followsRules [] (Stmt.eventsOfBody body)⟩
  rw [classifyFunction_vars]
  exact followsRules params.toList (Stmt.eventsOfBody body)

end Goward
