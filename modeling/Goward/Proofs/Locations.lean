import Goward.Proofs.Acceptance
import Goward.Proofs.BindingRules

/-!
# Locations of errors

An error should be reported at the innermost place that is known: that of a parameter or of a
statement around the fault, from the inside out. A fault of a statement gets its place on the way
out, and statements without a place are passed over. A fault of classification has the place of its
parameter or `global` statement from the beginning, and that is kept even if it is not known. Main
result: exactly then an error is not reported where it should be.
-/

namespace Goward

/-- The first place of a path that is known. -/
def Span.innermost? (path : List Span) : Option Span := path.find? (!·.isEmpty)

/-- Events that stand in no statement. -/
def Event.bare (events : List Event) : List (Event × List Span) := events.map (·, [])

/-- If the event declares a name global, the path begins with its place. -/
def Event.Heads (p : Event × List Span) : Prop := ∀ x span, p.1 = .global x span →
  p.2.head? = some span

mutual

/-- The events of a statement, each with the places of the statements that it stands in, from the
inside out. -/
def Stmt.placedEvents : Stmt → List (Event × List Span)
  | .mk span kind => (StmtKind.placedEvents span kind).map fun p => (p.1, p.2 ++ [span])

/-- The events of a statement at a place, each with the places of the statements in it that the event
stands in. -/
def StmtKind.placedEvents (span : Span) : StmtKind → List (Event × List Span)
  | .forEach target _ body orelse =>
    Event.bare (Event.binds target.boundNames) ++ Stmt.placedEventsOfBody body ++
      Stmt.placedEventsOfBody orelse
  | .whileLoop _ body orelse => Stmt.placedEventsOfBody body ++ Stmt.placedEventsOfBody orelse
  | .branch _ body orelse => Stmt.placedEventsOfBody body ++ Stmt.placedEventsOfBody orelse
  | .withItems items body =>
    Event.bare (Event.binds (Expr.boundNamesAll (items.filterMap (·.target)))) ++
      Stmt.placedEventsOfBody body
  | .tryExcept body handlers orelse finalbody =>
    Stmt.placedEventsOfBody body ++ Handler.placedEventsOfAll handlers ++
      Stmt.placedEventsOfBody orelse ++ Stmt.placedEventsOfBody finalbody
  | kind => Event.bare (StmtKind.events span kind)

/-- The events of an exception handler, each with the places of the statements in it that the event
stands in. -/
def Handler.placedEvents : Handler → List (Event × List Span)
  | .mk _ name body => Event.bare (Event.binds name.toList) ++ Stmt.placedEventsOfBody body

/-- The events of a body, each with the places of the statements that it stands in. -/
def Stmt.placedEventsOfBody : List Stmt → List (Event × List Span)
  | [] => []
  | s :: rest => s.placedEvents ++ Stmt.placedEventsOfBody rest

/-- The events of some exception handlers, each with the places of the statements in them that the
event stands in. -/
def Handler.placedEventsOfAll : List Handler → List (Event × List Span)
  | [] => []
  | h :: rest => h.placedEvents ++ Handler.placedEventsOfAll rest

end

@[simp] theorem Event.bare_events (events : List Event) : (bare events).map Prod.fst = events := by
  rw [bare, List.map_map]
  exact List.map_id events

mutual

theorem Stmt.placedEvents_events : (s : Stmt) → s.placedEvents.map Prod.fst = s.events
  | .mk span kind => by
    rw [Stmt.placedEvents, Stmt.events, List.map_map, ← StmtKind.placedEvents_events span kind]
    rfl

theorem StmtKind.placedEvents_events (span : Span) :
    (kind : StmtKind) → (StmtKind.placedEvents span kind).map Prod.fst = StmtKind.events span kind
  | .forEach target iter body orelse => by
    simp [StmtKind.placedEvents, StmtKind.events, Stmt.placedEventsOfBody_events body,
      Stmt.placedEventsOfBody_events orelse]
  | .whileLoop test body orelse => by
    simp [StmtKind.placedEvents, StmtKind.events, Stmt.placedEventsOfBody_events body,
      Stmt.placedEventsOfBody_events orelse]
  | .branch test body orelse => by
    simp [StmtKind.placedEvents, StmtKind.events, Stmt.placedEventsOfBody_events body,
      Stmt.placedEventsOfBody_events orelse]
  | .withItems items body => by
    simp [StmtKind.placedEvents, StmtKind.events, Stmt.placedEventsOfBody_events body]
  | .tryExcept body handlers orelse finalbody => by
    simp [StmtKind.placedEvents, StmtKind.events, Stmt.placedEventsOfBody_events body,
      Handler.placedEventsOfAll_events handlers, Stmt.placedEventsOfBody_events orelse,
      Stmt.placedEventsOfBody_events finalbody]
  | .assign _ _ | .augAssign _ _ _ | .delete _ | .global _ | .imports _ | .importsFrom _ _ _
  | .functionDef _ _ _ | .classDef _ _ _ | .ret _ | .expr _ | .breakLoop | .continueLoop | .pass => by
    simp [StmtKind.placedEvents]

theorem Handler.placedEvents_events : (h : Handler) → h.placedEvents.map Prod.fst = h.events
  | .mk type name body => by
    simp [Handler.placedEvents, Handler.events, Stmt.placedEventsOfBody_events body]

theorem Stmt.placedEventsOfBody_events :
    (body : List Stmt) → (Stmt.placedEventsOfBody body).map Prod.fst = Stmt.eventsOfBody body
  | [] => by
    simp [Stmt.placedEventsOfBody, Stmt.eventsOfBody]
  | s :: rest => by
    simp [Stmt.placedEventsOfBody, Stmt.eventsOfBody, Stmt.placedEvents_events s,
      Stmt.placedEventsOfBody_events rest]

theorem Handler.placedEventsOfAll_events : (handlers : List Handler) →
    (Handler.placedEventsOfAll handlers).map Prod.fst = Handler.eventsOfAll handlers
  | [] => by
    simp [Handler.placedEventsOfAll, Handler.eventsOfAll]
  | h :: rest => by
    simp [Handler.placedEventsOfAll, Handler.eventsOfAll, Handler.placedEvents_events h,
      Handler.placedEventsOfAll_events rest]

end

theorem Event.heads_append {p : Event × List Span} {path : List Span} (h : Heads p) :
    Heads (p.1, p.2 ++ path) := by
  intro x span hp
  rw [List.head?_append, h x span hp]
  rfl

theorem Event.heads_bare_binds {xs : List String} {p : Event × List Span}
    (hp : p ∈ bare (binds xs)) : Heads p := by
  intro x span hglobal
  obtain ⟨e, he, rfl⟩ := List.mem_map.mp hp
  obtain ⟨y, -, rfl⟩ := List.mem_map.mp he
  cases hglobal

mutual

theorem Stmt.placedEvents_heads : (s : Stmt) → ∀ p ∈ s.placedEvents, Event.Heads p
  | .mk span kind => by
    intro p hp
    rw [Stmt.placedEvents] at hp
    obtain ⟨q, hq, rfl⟩ := List.mem_map.mp hp
    exact StmtKind.placedEvents_heads span kind q hq

theorem StmtKind.placedEvents_heads (span : Span) : (kind : StmtKind) →
    ∀ p ∈ StmtKind.placedEvents span kind, Event.Heads (p.1, p.2 ++ [span])
  | .forEach target iter body orelse => by
    intro p hp
    simp only [StmtKind.placedEvents, List.mem_append] at hp
    rcases hp with (hp | hp) | hp
    · exact Event.heads_append (Event.heads_bare_binds hp)
    · exact Event.heads_append (Stmt.placedEventsOfBody_heads body p hp)
    · exact Event.heads_append (Stmt.placedEventsOfBody_heads orelse p hp)
  | .whileLoop test body orelse | .branch test body orelse => by
    intro p hp
    simp only [StmtKind.placedEvents, List.mem_append] at hp
    rcases hp with hp | hp
    · exact Event.heads_append (Stmt.placedEventsOfBody_heads body p hp)
    · exact Event.heads_append (Stmt.placedEventsOfBody_heads orelse p hp)
  | .withItems items body => by
    intro p hp
    simp only [StmtKind.placedEvents, List.mem_append] at hp
    rcases hp with hp | hp
    · exact Event.heads_append (Event.heads_bare_binds hp)
    · exact Event.heads_append (Stmt.placedEventsOfBody_heads body p hp)
  | .tryExcept body handlers orelse finalbody => by
    intro p hp
    simp only [StmtKind.placedEvents, List.mem_append] at hp
    rcases hp with ((hp | hp) | hp) | hp
    · exact Event.heads_append (Stmt.placedEventsOfBody_heads body p hp)
    · exact Event.heads_append (Handler.placedEventsOfAll_heads handlers p hp)
    · exact Event.heads_append (Stmt.placedEventsOfBody_heads orelse p hp)
    · exact Event.heads_append (Stmt.placedEventsOfBody_heads finalbody p hp)
  | .global names => by
    intro p hp x span' hglobal
    simp only [StmtKind.placedEvents, StmtKind.events, Event.bare, List.map_map] at hp
    obtain ⟨y, -, rfl⟩ := List.mem_map.mp hp
    cases hglobal
    rfl
  | .assign _ _ | .augAssign _ _ _ | .imports _ | .importsFrom _ _ _ => by
    intro p hp
    simp only [StmtKind.placedEvents, StmtKind.events] at hp
    exact Event.heads_append (Event.heads_bare_binds hp)
  | .functionDef name _ _ | .classDef name _ _ => by
    intro p hp
    simp only [StmtKind.placedEvents, StmtKind.events] at hp
    exact Event.heads_append (@Event.heads_bare_binds [name] p hp)
  | .delete _ | .ret _ | .expr _ | .breakLoop | .continueLoop | .pass => by
    intro p hp
    simp only [StmtKind.placedEvents, StmtKind.events] at hp
    cases hp

theorem Handler.placedEvents_heads : (h : Handler) → ∀ p ∈ h.placedEvents, Event.Heads p
  | .mk type name body => by
    intro p hp
    simp only [Handler.placedEvents, List.mem_append] at hp
    rcases hp with hp | hp
    · exact Event.heads_bare_binds hp
    · exact Stmt.placedEventsOfBody_heads body p hp

/-- In a body, the path of a `global` declaration begins with the place of its statement. -/
theorem Stmt.placedEventsOfBody_heads : (body : List Stmt) →
    ∀ p ∈ Stmt.placedEventsOfBody body, Event.Heads p
  | [] => by
    intro p hp
    simp [Stmt.placedEventsOfBody] at hp
  | s :: rest => by
    intro p hp
    rw [Stmt.placedEventsOfBody] at hp
    rcases List.mem_append.mp hp with hp | hp
    · exact Stmt.placedEvents_heads s p hp
    · exact Stmt.placedEventsOfBody_heads rest p hp

theorem Handler.placedEventsOfAll_heads : (handlers : List Handler) →
    ∀ p ∈ Handler.placedEventsOfAll handlers, Event.Heads p
  | [] => by
    intro p hp
    simp [Handler.placedEventsOfAll] at hp
  | h :: rest => by
    intro p hp
    rw [Handler.placedEventsOfAll] at hp
    rcases List.mem_append.mp hp with hp | hp
    · exact Handler.placedEvents_heads h p hp
    · exact Handler.placedEventsOfAll_heads rest p hp

end

namespace Span

variable {span : Span} {path : List Span}

theorem innermost?_cons_of_isEmpty (h : span.isEmpty = true) :
    innermost? (span :: path) = innermost? path := by
  rw [innermost?, List.find?_cons_of_neg (by simp [h]), innermost?]

theorem innermost?_cons_of_not_isEmpty (h : ¬span.isEmpty = true) :
    innermost? (span :: path) = some span := by
  rw [innermost?, List.find?_cons_of_pos (by simp [h])]

/-- The place that is reported is one that is known. -/
theorem innermost?_not_isEmpty (h : innermost? path = some span) : ¬span.isEmpty = true := by
  have hfound := List.find?_some h
  simpa using hfound

end Span

namespace Error

variable {e : Error} {span : Span}

theorem locate_cause (e : Error) (span : Span) : (e.locate span).cause = e.cause := by
  rw [locate]
  split <;> rfl

theorem locate_span (h : e.cause.isLocated = true) :
    (e.locate span).span = e.span.or (some span) := by
  rw [locate, if_pos h]

theorem leaving_all_cause (e : Error) (places : List Span) :
    (places.foldl leaving e).cause = e.cause := by
  induction places generalizing e with
  | nil => rfl
  | cons span rest ih => rw [List.foldl_cons, ih, leaving_cause]

/-- An error that leaves statements gets the innermost known place, unless it has a place. -/
theorem leaving_all_span (places : List Span) (h : e.cause.isLocated = true) :
    (places.foldl leaving e).span = e.span.or (Span.innermost? places) := by
  induction places generalizing e with
  | nil => exact (Option.or_none).symm
  | cons span rest ih =>
    have hnext : (e.leaving span).cause.isLocated = true := by rw [leaving_cause, h]
    rw [List.foldl_cons, ih hnext]
    by_cases hspan : span.isEmpty = true
    · rw [leaving, if_pos hspan, Span.innermost?_cons_of_isEmpty hspan]
    · rw [leaving, if_neg hspan, locate_span h, Span.innermost?_cons_of_not_isEmpty hspan]
      cases e.span <;> rfl

/-- Attaching places changes neither the cause, with all that is said about it, nor a place that is
there. -/
theorem locate_all (e : Error) (spans : List Span) :
    (spans.foldl locate e).cause = e.cause ∧
      ∀ span, e.span = some span → (spans.foldl locate e).span = some span := by
  induction spans generalizing e with
  | nil => exact ⟨rfl, fun _ h => h⟩
  | cons s rest ih =>
    rw [List.foldl_cons]
    obtain ⟨hcause, hspan⟩ := ih (e.locate s)
    refine ⟨hcause.trans (locate_cause e s), fun span h => hspan span ?_⟩
    rw [locate]
    split
    · show e.span.or (some s) = some span
      rw [h, Option.some_or]
    · exact h

end Error

/-! ### What a fault is blamed on -/

/-- The fault of a construct has this cause, and the path is that of the places around it, from the
inside out: of a repeated parameter and of the statements that it stands in. Parameters and
statements whose place is not known are on the path with an empty place. -/
inductive Site.Blames (s : Site) : Cause → List Span → Prop
  /-- A parameter has the name of an earlier one. -/
  | parameter {params : Parameters} {body : List Stmt} {before after : List Parameter}
    {p : Parameter} : s.construct = .function params body → params.toList = before ++ p :: after →
    (before.map (·.name)).Nodup → p.name ∈ before.map (·.name) →
    Blames s (.duplicateArgument p.name) (p.span :: s.places)
  /-- A `global` statement in the body of a function or a class is in conflict. -/
  | conflict {params : List Parameter} {body : List Stmt} {before after : List (Event × List Span)}
    {event : Event} {path : List Span} {e : Error} :
    (∃ ps, s.construct = .function ps body ∧ params = ps.toList) ∨
      (s.construct = .classBody body ∧ params = []) →
    (params.map (·.name)).Nodup → Stmt.placedEventsOfBody body = before ++ (event, path) :: after →
    (∀ d ∈ before, d.1.conflict? (params.map (·.name)) (Stmt.eventsOfBody body) = none) →
    event.conflict? (params.map (·.name)) (Stmt.eventsOfBody body) = some e →
    Blames s e.cause (path ++ s.places)
  /-- Any other construct has a fault. -/
  | construct {c : Cause} : (∀ params body, s.construct ≠ .function params body) →
    (∀ body, s.construct ≠ .classBody body) → s.construct.fault? s.around = some { cause := c } →
    Blames s c s.places

/-- The error is one of classification, and the parameter or `global` statement that it is about has
no known place. -/
def Cause.Misplaced (c : Cause) (path : List Span) : Prop :=
  c.FromClassification ∧ ∃ span ∈ path.head?, span.isEmpty = true

namespace Event

variable {event : Event} {params : List String} {events : List Event} {e : Error}

/-- A conflict is reported at the place of the event. -/
theorem conflict?_span (h : event.conflict? params events = some e) :
    ∃ x span, event = .global x span ∧ e.span = some span ∧ e.cause.FromClassification := by
  cases event with
  | bind x => cases h
  | global x span =>
    rw [conflict?] at h
    split at h
    · cases h
      exact ⟨x, span, rfl, rfl, trivial⟩
    · split at h
      · cases h
        exact ⟨x, span, rfl, rfl, trivial⟩
      · cases h

end Event

namespace Site

variable {s : Site} {e : Error}

/-- A fault of any other construct than a definition has no place of its own. -/
theorem construct_fault?_span {c : Construct} {around : Surroundings}
    (hfunction : ∀ params body, c ≠ .function params body) (hclass : ∀ body, c ≠ .classBody body)
    (h : c.fault? around = some e) : e.span = none ∧ ¬e.cause.FromClassification := by
  cases c with
  | withStatement | tryStatement =>
    cases h
    exact ⟨rfl, id⟩
  | returning value =>
    rw [Construct.fault?] at h
    split at h
    · split at h
      · cases h
        exact ⟨rfl, id⟩
      · cases h
    · cases h
      exact ⟨rfl, id⟩
    · cases h
      exact ⟨rfl, id⟩
  | loopControl keyword =>
    rw [Construct.fault?] at h
    split at h
    · cases h
    · cases h
      exact ⟨rfl, id⟩
  | deleting target =>
    cases target with
    | name x =>
      rw [Construct.fault?] at h
      split at h
      · split at h
        · cases h
        · cases h
          exact ⟨rfl, id⟩
      · cases h
      · cases h
    | str _ | int _ | tuple _ | list _ | attr _ _ | call _ _ | binop _ _ _ | yield _ =>
      cases h
      exact ⟨rfl, id⟩
  | storing leaf =>
    cases leaf with
    | name _ | attr _ _ => cases h
    | str _ | int _ | tuple _ | list _ | call _ _ | binop _ _ _ | yield _ =>
      cases h
      exact ⟨rfl, id⟩
  | updating target =>
    cases target with
    | name _ => cases h
    | str _ | int _ | tuple _ | list _ | attr _ _ | call _ _ | binop _ _ _ | yield _ =>
      cases h
      exact ⟨rfl, id⟩
  | evaluating e =>
    rw [Construct.fault?] at h
    split at h
    · cases h
      exact ⟨rfl, id⟩
    · cases h
  | loading path =>
    rw [Construct.fault?] at h
    split at h
    · cases h
      exact ⟨rfl, id⟩
    · cases h
  | loadingFrom path level =>
    rw [Construct.fault?] at h
    split at h
    · cases h
      exact ⟨rfl, id⟩
    · split at h
      · cases h
        exact ⟨rfl, id⟩
      · split at h
        · cases h
          exact ⟨rfl, id⟩
        · cases h
  | function params body => exact absurd rfl (hfunction params body)
  | classBody body => exact absurd rfl (hclass body)

/-- What a classification that fails is blamed on, and where it says that it failed. -/
theorem blames_of_rules {params : List Parameter} {body : List Stmt}
    (hbody : (∃ ps, s.construct = .function ps body ∧ params = ps.toList) ∨
      (s.construct = .classBody body ∧ params = []))
    (h : ReportsRepeated params e ∨
      (params.map (·.name)).Nodup ∧ ReportsConflict params (Stmt.eventsOfBody body) e) :
    ∃ path, s.Blames e.cause path ∧ e.span.isSome ∧ path.head? = e.span ∧
      e.cause.FromClassification := by
  rcases h with ⟨before, p, after, hsplit, hnodup, hp, rfl⟩ |
    ⟨hnodup, before, event, after, hsplit, hnone, hsome⟩
  · rcases hbody with ⟨ps, hconstruct, rfl⟩ | ⟨-, rfl⟩
    · exact ⟨p.span :: s.places, .parameter hconstruct hsplit hnodup hp, rfl, rfl, trivial⟩
    · simp at hsplit
  · rw [← Stmt.placedEventsOfBody_events] at hsplit
    obtain ⟨before', rest, hplaced, rfl, hrest⟩ := List.map_eq_append_iff.mp hsplit
    obtain ⟨⟨event', path⟩, after', rfl, rfl, rfl⟩ := List.map_eq_cons_iff.mp hrest
    obtain ⟨x, span, hevent, hspan, hcause⟩ := Event.conflict?_span hsome
    have hheads : Event.Heads (event', path) :=
      Stmt.placedEventsOfBody_heads body _ (by rw [hplaced]; simp)
    refine ⟨path ++ s.places, .conflict hbody hnodup hplaced ?_ hsome, ?_, ?_, hcause⟩
    · intro d hd
      exact hnone d.1 (List.mem_map_of_mem hd)
    · rw [hspan]
      rfl
    · rw [hspan, List.head?_append, hheads x span hevent]
      rfl

/-- The error of a construct is blamed on a path. Its own place is the first one of the path if it is
one of classification; otherwise it has none, and the path is that of the statements around. -/
theorem blames_of_fault (h : s.construct.fault? s.around = some e) :
    ∃ path, s.Blames e.cause path ∧
      (e.cause.FromClassification → e.span.isSome ∧ path.head? = e.span) ∧
      (¬e.cause.FromClassification → e.span = none ∧ path = s.places) := by
  cases hconstruct : s.construct with
  | function params body =>
    rw [hconstruct, Construct.fault?] at h
    have hvars : (classifyFunction params body).map (·.vars) = .error e := by
      cases hc : classifyFunction params body with
      | ok f =>
        rw [hc] at h
        cases h
      | error e' =>
        rw [hc] at h
        cases h
        rfl
    rw [classifyFunction_vars] at hvars
    obtain ⟨path, hblames, hsome, hhead, hcause⟩ := blames_of_rules (.inl ⟨params, hconstruct, rfl⟩)
      (((followsRules params.toList (Stmt.eventsOfBody body)).error_iff e).mp hvars)
    exact ⟨path, hblames, fun _ => ⟨hsome, hhead⟩, fun hnot => absurd hcause hnot⟩
  | classBody body =>
    rw [hconstruct, Construct.fault?] at h
    have hvars : classifyClass body = .error e := by
      cases hc : classifyClass body with
      | ok f =>
        rw [hc] at h
        cases h
      | error e' =>
        rw [hc] at h
        cases h
        rfl
    obtain ⟨path, hblames, hsome, hhead, hcause⟩ := blames_of_rules (.inr ⟨hconstruct, rfl⟩)
      (((followsRules [] (Stmt.eventsOfBody body)).error_iff e).mp hvars)
    exact ⟨path, hblames, fun _ => ⟨hsome, hhead⟩, fun hnot => absurd hcause hnot⟩
  | withStatement | tryStatement | returning _ | loopControl _ | deleting _ | storing _ | updating _
  | evaluating _ | loading _ | loadingFrom _ _ =>
    obtain ⟨hspan, hcause⟩ := construct_fault?_span (by simp [hconstruct]) (by simp [hconstruct]) h
    have he : e = { cause := e.cause } := by
      cases e
      cases hspan
      rfl
    rw [he] at h
    refine ⟨s.places, .construct (by simp [hconstruct]) (by simp [hconstruct]) h,
      fun hc => absurd hc hcause, fun _ => ⟨hspan, rfl⟩⟩

end Site

theorem Cause.isLocated_of_not_internal {c : Cause} (h : ¬c.Internal) : c.isLocated = true := by
  cases c with
  | tempNotInUse v => exact absurd trivial h
  | duplicateArgument _ | parameterAndGlobal _ | usedPriorToGlobal _ | deleteNonexistentLocal _
  | unclassifiedName _ | returnOutsideFunction | loopControlOutsideLoop _ | unsupported _ => rfl

/-- An error with the first place of its path is at the innermost known one if that place is known. -/
theorem Span.head?_eq_innermost?_iff {path : List Span} {span : Span}
    (h : path.head? = some span) :
    some span = innermost? path ↔ ¬∃ head ∈ path.head?, head.isEmpty = true := by
  obtain ⟨rest, rfl⟩ : ∃ rest, path = span :: rest := ⟨path.tail, (List.cons_head?_tail h).symm⟩
  simp only [List.head?_cons, Option.mem_def, Option.some.injEq, exists_eq_left']
  by_cases hspan : span.isEmpty = true
  · rw [innermost?_cons_of_isEmpty hspan]
    simp only [hspan, not_true, iff_false]
    intro hinnermost
    exact innermost?_not_isEmpty hinnermost.symm hspan
  · rw [innermost?_cons_of_not_isEmpty hspan]
    simp [hspan]

/-- A fault, as it leaves the statements around its construct, is at the innermost known place unless
it is one of classification that is misplaced. -/
theorem Site.fault?_location {s : Site} {e : Error} (h : s.fault? = some e)
    (hinternal : ¬e.cause.Internal) :
    ∃ path, s.Blames e.cause path ∧
      (e.span = Span.innermost? path ↔ ¬e.cause.Misplaced path) ∧
      (e.cause.Misplaced path → ∃ span, e.span = some span ∧ span.isEmpty = true) := by
  obtain ⟨e, he, rfl⟩ := Option.map_eq_some_iff.mp h
  rw [Error.leaving_all_cause] at hinternal ⊢
  rw [Error.leaving_all_span s.places (Cause.isLocated_of_not_internal hinternal)]
  obtain ⟨path, hblames, hclassified, hother⟩ := blames_of_fault he
  refine ⟨path, hblames, ?_⟩
  by_cases hcause : e.cause.FromClassification
  · obtain ⟨hsome, hhead⟩ := hclassified hcause
    obtain ⟨span, hspan⟩ := Option.isSome_iff_exists.mp hsome
    rw [hspan] at hhead ⊢
    rw [Option.some_or, Span.head?_eq_innermost?_iff hhead, Cause.Misplaced]
    refine ⟨by simp [hcause], ?_⟩
    rintro ⟨-, head, hmem, hempty⟩
    rw [hhead] at hmem
    exact ⟨head, hmem, hempty⟩
  · obtain ⟨hspan, rfl⟩ := hother hcause
    rw [hspan, Option.none_or]
    exact ⟨by simp [Cause.Misplaced, hcause], fun hmisplaced => absurd hmisplaced.1 hcause⟩

/-- Where an error is reported. The first construct that has a fault is blamed, with a path of places
from the inside out, and the error is reported at the innermost known place of the path, unless it is
about a parameter or a `global` statement whose own place is not known: then it is reported at this
empty place. Attaching further places to an error changes neither its place, if it has one, nor what
it says. -/
theorem error_location_iff {o : Options} {source : Option String} {body : List Stmt} {e : Error}
    (h : compile o source body = .error e) :
    (∃ before s after path, Site.ofModule body = before ++ s :: after ∧
      (∀ q ∈ before, q.fault? = none) ∧ s.Blames e.cause path ∧
      (∀ name, e.cause ≠ .tempNotInUse name) ∧
      (e.span = Span.innermost? path ↔ ¬e.cause.Misplaced path) ∧
      (e.cause.Misplaced path → ∃ span, e.span = some span ∧ span.isEmpty = true)) ∧
    ∀ (e : Error) (spans : List Span) (file : String),
      (spans.foldl Error.locate e).cause = e.cause ∧
      (spans.foldl Error.locate e).message = e.message ∧
      ((spans.foldl Error.locate e).diagnostic file).code = (e.diagnostic file).code ∧
      ((spans.foldl Error.locate e).diagnostic file).text = (e.diagnostic file).text ∧
      ∀ span, e.span = some span → (spans.foldl Error.locate e).span = some span := by
  constructor
  · have hinternal : ¬e.cause.Internal := compile_not_internal h
    have hfirst : Site.first? (Site.ofModule body) = some e := by
      rw [← errorOf?_compile o source body, h, errorOf?]
    obtain ⟨before, s, after, hsplit, hnone, hfault⟩ := Site.first?_eq_some_iff.mp hfirst
    obtain ⟨path, hblames, hiff, hempty⟩ := Site.fault?_location hfault hinternal
    refine ⟨before, s, after, path, hsplit, hnone, hblames, fun name hname => ?_, hiff, hempty⟩
    rw [hname] at hinternal
    exact hinternal trivial
  · intro e spans file
    obtain ⟨hcause, hspan⟩ := e.locate_all spans
    refine ⟨hcause, ?_, ?_, ?_, hspan⟩
    · rw [Error.message, Error.message, hcause]
    · rw [Error.diagnostic, Error.diagnostic, hcause]
      rfl
    · rw [Error.diagnostic, Error.diagnostic, hcause]
      rfl

/-- Defines a function, in a statement with a place, whose parameter without a place is repeated. -/
def Stmt.repeatedParameter : List Stmt :=
  [.mk ⟨3, 5⟩ (.functionDef "f" ⟨[⟨"a", .nowhere⟩, ⟨"a", .nowhere⟩], none, none⟩ [])]

/-- The repeated parameter is reported at an empty place although that of the definition is known. -/
theorem error_location_unknown : ∃ (s : Site) (e : Error) (path : List Span),
    Site.ofModule Stmt.repeatedParameter = [s] ∧
      compile {} none Stmt.repeatedParameter = .error e ∧ s.Blames e.cause path ∧
      Span.innermost? path = some ⟨3, 5⟩ ∧ e.span = some .nowhere := by
  have hsplit : (⟨[⟨"a", .nowhere⟩, ⟨"a", .nowhere⟩], none, none⟩ : Parameters).toList =
      [⟨"a", .nowhere⟩] ++ ⟨"a", .nowhere⟩ :: [] := rfl
  refine ⟨_, ⟨.duplicateArgument "a", some .nowhere⟩, [.nowhere, ⟨3, 5⟩], rfl, rfl, ?_, rfl, rfl⟩
  exact .parameter rfl hsplit (by decide) (by decide)

/-- Declares a name global too late, in statements that all have a place but the branch around it. -/
def Stmt.lateGlobal : List Stmt :=
  [.mk ⟨0, 40⟩ (.functionDef "f" ⟨[], none, none⟩
    [.mk ⟨9, 5⟩ (.assign [.name "x"] (.int 1)),
      .mk .nowhere (.branch (.name "y") [.mk ⟨25, 8⟩ (.global ["x"])] [])])]

/-- The conflict is reported at the `global` statement. -/
theorem error_location_lateGlobal : ∃ (s : Site) (path : List Span) (e : Error),
    compile {} none Stmt.lateGlobal = .error e ∧ s.Blames e.cause path ∧
      e.span = Span.innermost? path := by
  have hcompile : compile {} none Stmt.lateGlobal =
      .error ⟨.usedPriorToGlobal "x", some ⟨25, 8⟩⟩ := rfl
  obtain ⟨before, s, after, path, hsplit, hnone, hblames, -, hiff, hempty⟩ :=
    (error_location_iff hcompile).1
  refine ⟨s, path, _, hcompile, hblames, hiff.mpr ?_⟩
  intro hmisplaced
  obtain ⟨span, hspan, hspanempty⟩ := hempty hmisplaced
  cases hspan
  cases hspanempty

end Goward
