import Goward.Proofs.Requests
import Goward.Proofs.StoredNames

/-!
# Identifiers of a module

The identifiers that are written in a module, statement by statement. Every name that a body binds
or declares is one of them, and so is every name that a request shows: the components of the paths of
packages, the members of Go packages and the names that a function has records of.
-/

namespace Goward

mutual

/-- What a statement does, and what the statements inside of it do, at any depth. -/
def Stmt.parts : Stmt → List StmtKind
  | .mk _ kind => kind.parts

/-- What a statement does, and what the statements inside of it do, at any depth. -/
def StmtKind.parts : StmtKind → List StmtKind
  | .functionDef name params body => .functionDef name params body :: Stmt.partsOfBody body
  | .classDef name bases body => .classDef name bases body :: Stmt.partsOfBody body
  | .forEach target iter body orelse =>
    .forEach target iter body orelse :: (Stmt.partsOfBody body ++ Stmt.partsOfBody orelse)
  | .whileLoop test body orelse =>
    .whileLoop test body orelse :: (Stmt.partsOfBody body ++ Stmt.partsOfBody orelse)
  | .branch test body orelse =>
    .branch test body orelse :: (Stmt.partsOfBody body ++ Stmt.partsOfBody orelse)
  | .withItems items body => .withItems items body :: Stmt.partsOfBody body
  | .tryExcept body handlers orelse finalbody =>
    .tryExcept body handlers orelse finalbody ::
      (Stmt.partsOfBody body ++ Handler.partsOfAll handlers ++ Stmt.partsOfBody orelse ++
        Stmt.partsOfBody finalbody)
  | k => [k]

/-- What the statements of an exception handler do, at any depth. -/
def Handler.parts : Handler → List StmtKind
  | .mk _ _ body => Stmt.partsOfBody body

/-- What the statements of a body do, at any depth. -/
def Stmt.partsOfBody : List Stmt → List StmtKind
  | [] => []
  | s :: rest => s.parts ++ Stmt.partsOfBody rest

/-- What the statements of some exception handlers do, at any depth. -/
def Handler.partsOfAll : List Handler → List StmtKind
  | [] => []
  | h :: rest => h.parts ++ Handler.partsOfAll rest

end

mutual

theorem Stmt.parts_subset {k : StmtKind} : (s : Stmt) → k ∈ s.parts → k.parts ⊆ s.parts
  | .mk _ kind => StmtKind.parts_subset kind

/-- The parts of a part are parts of the whole. -/
theorem StmtKind.parts_subset {k : StmtKind} :
    (k' : StmtKind) → k ∈ k'.parts → k.parts ⊆ k'.parts
  | .functionDef _ _ body | .classDef _ _ body | .withItems _ body => fun h => by
    rcases List.mem_cons.mp h with rfl | h
    · exact List.Subset.refl _
    · exact fun x hx => List.mem_cons_of_mem _ (Stmt.partsOfBody_subset body h hx)
  | .forEach _ _ body orelse | .whileLoop _ body orelse | .branch _ body orelse => fun h => by
    rcases List.mem_cons.mp h with rfl | h
    · exact List.Subset.refl _
    · intro x hx
      exact List.mem_cons_of_mem _ (List.mem_append.mpr ((List.mem_append.mp h).imp
        (fun h => Stmt.partsOfBody_subset body h hx)
        fun h => Stmt.partsOfBody_subset orelse h hx))
  | .tryExcept body handlers orelse finalbody => fun h => by
    rcases List.mem_cons.mp h with rfl | h
    · exact List.Subset.refl _
    · intro x hx
      simp only [List.mem_append] at h
      simp only [StmtKind.parts, List.mem_cons, List.mem_append]
      exact .inr (h.imp (.imp (.imp (fun h => Stmt.partsOfBody_subset body h hx)
        fun h => Handler.partsOfAll_subset handlers h hx)
        fun h => Stmt.partsOfBody_subset orelse h hx)
        fun h => Stmt.partsOfBody_subset finalbody h hx)
  | .assign _ _ | .augAssign _ _ _ | .delete _ | .global _ | .imports _ | .importsFrom _ _ _
  | .ret _ | .expr _ | .breakLoop | .continueLoop | .pass => fun h => by
    obtain rfl := List.mem_singleton.mp h
    exact List.Subset.refl _

theorem Handler.parts_subset {k : StmtKind} : (h : Handler) → k ∈ h.parts → k.parts ⊆ h.parts
  | .mk _ _ body => Stmt.partsOfBody_subset body

theorem Stmt.partsOfBody_subset {k : StmtKind} :
    (body : List Stmt) → k ∈ Stmt.partsOfBody body → k.parts ⊆ Stmt.partsOfBody body
  | [] => fun h => nomatch h
  | s :: rest => fun h _ hx => List.mem_append.mpr ((List.mem_append.mp h).imp
      (fun h => Stmt.parts_subset s h hx) fun h => Stmt.partsOfBody_subset rest h hx)

theorem Handler.partsOfAll_subset {k : StmtKind} :
    (hs : List Handler) → k ∈ Handler.partsOfAll hs → k.parts ⊆ Handler.partsOfAll hs
  | [] => fun h => nomatch h
  | handler :: rest => fun h _ hx => List.mem_append.mpr ((List.mem_append.mp h).imp
      (fun h => Handler.parts_subset handler h hx) fun h => Handler.partsOfAll_subset rest h hx)

end

mutual

/-- The identifiers in an expression. -/
def Expr.identifiers : Expr → List String
  | .name x => [x]
  | .str _ | .int _ | .yield none => []
  | .tuple elts | .list elts => Expr.identifiersOfAll elts
  | .attr obj member => obj.identifiers ++ [member]
  | .call fn args => fn.identifiers ++ Expr.identifiersOfAll args
  | .binop left _ right => left.identifiers ++ right.identifiers
  | .yield (some value) => value.identifiers

/-- The identifiers in some expressions. -/
def Expr.identifiersOfAll : List Expr → List String
  | [] => []
  | e :: rest => e.identifiers ++ Expr.identifiersOfAll rest

end

/-- The identifiers in a clause of an import. -/
def Alias.identifiers (a : Alias) : List String := a.path.parts ++ a.asName.toList

/-- The identifiers in an item of a `with` statement. -/
def WithItem.identifiers (i : WithItem) : List String :=
  i.context.identifiers ++ Expr.identifiersOfAll i.target.toList

/-- The identifiers in the head of an exception handler. -/
def Handler.identifiers : Handler → List String
  | .mk type name _ => Expr.identifiersOfAll type.toList ++ name.toList

/-- The identifiers in a statement, without those in the statements inside of it. -/
def StmtKind.identifiers : StmtKind → List String
  | .assign targets value => Expr.identifiersOfAll targets ++ value.identifiers
  | .augAssign target _ value => target.identifiers ++ value.identifiers
  | .delete targets => Expr.identifiersOfAll targets
  | .global names => names
  | .imports names => names.flatMap Alias.identifiers
  | .importsFrom path names _ => path.parts ++ names.flatMap Alias.identifiers
  | .functionDef name params _ => name :: params.toList.map (·.name)
  | .classDef name bases _ => name :: Expr.identifiersOfAll bases
  | .forEach target iter _ _ => target.identifiers ++ iter.identifiers
  | .whileLoop test _ _ | .branch test _ _ => test.identifiers
  | .withItems items _ => items.flatMap WithItem.identifiers
  | .tryExcept _ handlers _ _ => handlers.flatMap Handler.identifiers
  | .ret value => Expr.identifiersOfAll value.toList
  | .expr value => value.identifiers
  | .breakLoop | .continueLoop | .pass => []

/-- The identifiers in the statements of a body, at any depth. -/
def Stmt.identifiersOfBody (body : List Stmt) : List String :=
  (Stmt.partsOfBody body).flatMap StmtKind.identifiers

mutual

theorem Expr.mem_identifiers_of_bound {x : String} :
    (e : Expr) → x ∈ e.boundNames → x ∈ e.identifiers
  | .name _ => id
  | .tuple elts | .list elts => Expr.mem_identifiersOfAll_of_bound elts
  | .str _ | .int _ | .attr _ _ | .call _ _ | .binop _ _ _ | .yield _ => fun h => nomatch h

theorem Expr.mem_identifiersOfAll_of_bound {x : String} :
    (es : List Expr) → x ∈ Expr.boundNamesAll es → x ∈ Expr.identifiersOfAll es
  | [] => id
  | e :: rest => fun h => List.mem_append.mpr ((List.mem_append.mp h).imp
      (Expr.mem_identifiers_of_bound e) (Expr.mem_identifiersOfAll_of_bound rest))

end

theorem Event.name_of_binds {e : Event} {xs : List String} (h : e ∈ Event.binds xs) :
    e.name ∈ xs := by
  obtain ⟨x, hx, rfl⟩ := List.mem_map.mp h
  exact hx

theorem Alias.importedName?_mem {a : Alias} {x : String} (h : a.importedName? = some x) :
    x ∈ a.identifiers := by
  rcases Option.or_eq_some_iff.mp h with h | ⟨-, h⟩
  · exact List.mem_append_right _ (by simp [h])
  · exact List.mem_append_left _ (List.mem_of_mem_head? h)

theorem Alias.memberName?_mem {a : Alias} {x : String} (h : a.memberName? = some x) :
    x ∈ a.identifiers := by
  rcases Option.or_eq_some_iff.mp h with h | ⟨-, h⟩
  · exact List.mem_append_right _ (by simp [h])
  · exact List.mem_append_left _ (List.mem_of_getLast? h)

theorem WithItem.mem_identifiers_of_bound {items : List WithItem} {x : String}
    (h : x ∈ Expr.boundNamesAll (items.filterMap (·.target))) :
    x ∈ items.flatMap WithItem.identifiers := by
  induction items with
  | nil => exact h
  | cons i rest ih =>
    rw [List.flatMap_cons, List.mem_append]
    cases htarget : i.target with
    | none =>
      rw [List.filterMap_cons_none htarget] at h
      exact .inr (ih h)
    | some target =>
      rw [List.filterMap_cons_some htarget, Expr.boundNamesAll, List.mem_append] at h
      refine h.imp (fun h => ?_) ih
      rw [WithItem.identifiers, htarget]
      exact List.mem_append_right _ (List.mem_append_left _ (Expr.mem_identifiers_of_bound target h))

/-- A name is an identifier of one of some parts. -/
def StmtKind.Name (ks : List StmtKind) (x : String) : Prop := ∃ k ∈ ks, x ∈ k.identifiers

theorem StmtKind.Name.append {a b : List StmtKind} {x : String}
    (h : StmtKind.Name a x ∨ StmtKind.Name b x) : StmtKind.Name (a ++ b) x := by
  rcases h with ⟨k, hk, hx⟩ | ⟨k, hk, hx⟩
  · exact ⟨k, List.mem_append_left b hk, hx⟩
  · exact ⟨k, List.mem_append_right a hk, hx⟩

theorem StmtKind.Name.cons {k : StmtKind} {ks : List StmtKind} {x : String}
    (h : x ∈ k.identifiers ∨ StmtKind.Name ks x) : StmtKind.Name (k :: ks) x := by
  rcases h with h | ⟨k', hk, hx⟩
  · exact ⟨k, List.mem_cons_self, h⟩
  · exact ⟨k', List.mem_cons_of_mem _ hk, hx⟩

mutual

theorem Stmt.name_of_event {e : Event} :
    (s : Stmt) → e ∈ s.events → StmtKind.Name s.parts e.name
  | .mk span kind => StmtKind.name_of_event span kind

theorem StmtKind.name_of_event {e : Event} (span : Span) :
    (k : StmtKind) → e ∈ k.events span → StmtKind.Name k.parts e.name
  | .assign targets _ => fun h => .cons (.inl (List.mem_append_left _
      (Expr.mem_identifiersOfAll_of_bound targets (Event.name_of_binds h))))
  | .augAssign target _ _ => fun h => .cons (.inl (List.mem_append_left _
      (Expr.mem_identifiers_of_bound target (Event.name_of_binds h))))
  | .global names => fun h => by
    obtain ⟨x, hx, rfl⟩ := List.mem_map.mp h
    exact .cons (.inl hx)
  | .imports names => fun h => by
    obtain ⟨a, ha, hname⟩ := List.mem_filterMap.mp (Event.name_of_binds h)
    exact .cons (.inl (List.mem_flatMap.mpr ⟨a, ha, a.importedName?_mem hname⟩))
  | .importsFrom path names _ => fun h => by
    obtain ⟨a, ha, hname⟩ := List.mem_filterMap.mp (Event.name_of_binds h)
    exact .cons (.inl (List.mem_append_right _
      (List.mem_flatMap.mpr ⟨a, ha, a.memberName?_mem hname⟩)))
  | .functionDef name params body => fun h => by
    obtain rfl := List.mem_singleton.mp h
    exact .cons (.inl List.mem_cons_self)
  | .classDef name bases body => fun h => by
    obtain rfl := List.mem_singleton.mp h
    exact .cons (.inl List.mem_cons_self)
  | .forEach target _ body orelse => fun h => by
    rcases List.mem_append.mp h with h | h
    · rcases List.mem_append.mp h with h | h
      · exact .cons (.inl (List.mem_append_left _
          (Expr.mem_identifiers_of_bound target (Event.name_of_binds h))))
      · exact .cons (.inr (.append (.inl (Stmt.name_of_eventOfBody body h))))
    · exact .cons (.inr (.append (.inr (Stmt.name_of_eventOfBody orelse h))))
  | .whileLoop _ body orelse | .branch _ body orelse => fun h => .cons (.inr (.append
      ((List.mem_append.mp h).imp (Stmt.name_of_eventOfBody body)
        (Stmt.name_of_eventOfBody orelse))))
  | .withItems items body => fun h => by
    rcases List.mem_append.mp h with h | h
    · exact .cons (.inl (WithItem.mem_identifiers_of_bound (Event.name_of_binds h)))
    · exact .cons (.inr (Stmt.name_of_eventOfBody body h))
  | .tryExcept body handlers orelse finalbody => fun h => by
    rcases List.mem_append.mp h with h | h
    · rcases List.mem_append.mp h with h | h
      · rcases List.mem_append.mp h with h | h
        · exact .cons (.inr (.append (.inl (.append (.inl (.append (.inl
            (Stmt.name_of_eventOfBody body h))))))))
        · rcases Handler.name_of_eventOfAll handlers h with h | h
          · exact .cons (.inl h)
          · exact .cons (.inr (.append (.inl (.append (.inl (.append (.inr h)))))))
      · exact .cons (.inr (.append (.inl (.append (.inr (Stmt.name_of_eventOfBody orelse h))))))
    · exact .cons (.inr (.append (.inr (Stmt.name_of_eventOfBody finalbody h))))
  | .delete _ | .ret _ | .expr _ | .breakLoop | .continueLoop | .pass => fun h => nomatch h

theorem Handler.name_of_event {e : Event} : (h : Handler) → e ∈ h.events →
    e.name ∈ h.identifiers ∨ StmtKind.Name h.parts e.name
  | .mk type name body => fun h => by
    rcases List.mem_append.mp h with h | h
    · exact .inl (List.mem_append_right _ (Event.name_of_binds h))
    · exact .inr (Stmt.name_of_eventOfBody body h)

theorem Stmt.name_of_eventOfBody {e : Event} : (body : List Stmt) → e ∈ Stmt.eventsOfBody body →
    StmtKind.Name (Stmt.partsOfBody body) e.name
  | [] => fun h => nomatch h
  | s :: rest => fun h => .append ((List.mem_append.mp h).imp (Stmt.name_of_event s)
      (Stmt.name_of_eventOfBody rest))

theorem Handler.name_of_eventOfAll {e : Event} : (hs : List Handler) →
    e ∈ Handler.eventsOfAll hs → e.name ∈ hs.flatMap Handler.identifiers ∨
      StmtKind.Name (Handler.partsOfAll hs) e.name
  | [] => fun h => nomatch h
  | handler :: rest => fun h => by
    rw [List.flatMap_cons, List.mem_append]
    rcases List.mem_append.mp h with h | h
    · exact (Handler.name_of_event handler h).imp .inl fun h => .append (.inl h)
    · exact (Handler.name_of_eventOfAll rest h).imp .inr fun h => .append (.inr h)

end

/-! ### Requests at any depth -/

namespace Request

/-- A request for a name or a string. -/
def Simple : Request → Prop
  | read _ | store _ | delete _ | text _ => True
  | library _ | native _ _ | member _ | enter _ _ => False

/-- All of some requests have a property, at any depth. -/
def All (P : Request → Prop) (reqs : List Request) : Prop := ∀ q ∈ deepAll reqs, P q

namespace All

variable {P : Request → Prop} {a b : List Request}

theorem append (ha : All P a) (hb : All P b) : All P (a ++ b) := by
  intro q hq
  rw [deepAll_append] at hq
  exact (List.mem_append.mp hq).elim (ha q) (hb q)

theorem enter {kind : ScopeKind} {body : List Request} (h : P (.enter kind body))
    (hbody : All P body) : All P [.enter kind body] := by
  intro q hq
  rw [deepAll_enter] at hq
  rcases List.mem_cons.mp hq with rfl | hq
  · exact h
  · exact hbody q hq

/-- Requests that enter no body. -/
theorem flat (hflat : ∀ q ∈ a, q.deep = [q]) (h : ∀ q ∈ a, P q) : All P a := by
  intro q hq
  rw [deepAll_eq_flatMap] at hq
  obtain ⟨p, hp, hq⟩ := List.mem_flatMap.mp hq
  rw [hflat p hp] at hq
  exact List.mem_singleton.mp hq ▸ h p hp

theorem simple (hP : ∀ q : Request, q.Simple → P q) (h : ∀ q ∈ a, q.Simple) : All P a := by
  refine flat (fun q hq => ?_) fun q hq => hP q (h q hq)
  have hq := h q hq
  cases q with
  | read _ | store _ | delete _ | text _ | library _ | native _ _ | member _ => rfl
  | enter _ _ => exact hq.elim

end All

end Request

mutual

theorem Expr.requests_simple : (e : Expr) → ∀ q ∈ e.requests, q.Simple
  | .name _ | .str _ => fun _ hq => List.mem_singleton.mp hq ▸ trivial
  | .int _ | .yield none => fun _ hq => nomatch hq
  | .tuple elts | .list elts => Expr.requestsOfAll_simple elts
  | .attr obj _ => fun q hq => (List.mem_append.mp hq).elim (Expr.requests_simple obj q)
      fun hq => List.mem_singleton.mp hq ▸ trivial
  | .call fn args => fun q hq => (List.mem_append.mp hq).elim (Expr.requests_simple fn q)
      (Expr.requestsOfAll_simple args q)
  | .binop left _ right => fun q hq => (List.mem_append.mp hq).elim (Expr.requests_simple left q)
      (Expr.requests_simple right q)
  | .yield (some value) => Expr.requests_simple value

theorem Expr.requestsOfAll_simple : (es : List Expr) → ∀ q ∈ Expr.requestsOfAll es, q.Simple
  | [] => fun _ hq => nomatch hq
  | e :: rest => fun q hq => (List.mem_append.mp hq).elim (Expr.requests_simple e q)
      (Expr.requestsOfAll_simple rest q)

end

mutual

theorem Expr.targetRequests_simple : (e : Expr) → ∀ q ∈ e.targetRequests, q.Simple
  | .name _ => fun _ hq => List.mem_singleton.mp hq ▸ trivial
  | .attr obj _ => fun q hq => (List.mem_append.mp hq).elim (Expr.requests_simple obj q)
      fun hq => List.mem_singleton.mp hq ▸ trivial
  | .tuple elts | .list elts => Expr.targetRequestsOfAll_simple elts
  | .str _ | .int _ | .call _ _ | .binop _ _ _ | .yield _ => fun _ hq => nomatch hq

theorem Expr.targetRequestsOfAll_simple :
    (es : List Expr) → ∀ q ∈ Expr.targetRequestsOfAll es, q.Simple
  | [] => fun _ hq => nomatch hq
  | e :: rest => fun q hq => (List.mem_append.mp hq).elim (Expr.targetRequests_simple e q)
      (Expr.targetRequestsOfAll_simple rest q)

end

theorem Expr.deleteRequests_simple (targets : List Expr) :
    ∀ q ∈ Expr.deleteRequests targets, q.Simple := by
  intro q hq
  obtain ⟨e, -, he⟩ := List.mem_filterMap.mp hq
  split at he
  · cases he
    trivial
  · cases he

/-- Every request that a part of a module makes by itself, apart from those for names and strings,
has a property. -/
def StmtKind.Admits (P : Request → Prop) : StmtKind → Prop
  | .imports names => ∀ a ∈ names, ∀ q ∈ a.path.requests, P q
  | .importsFrom path names _ => ∀ q ∈ importFromRequests path names, P q
  | .functionDef _ params body =>
    ∀ f inner, classifyFunction params body = .ok f → P (.enter (.function f) inner)
  | .classDef _ _ _ => ∀ globals inner, P (.enter (.classBody globals) inner)
  | _ => True

theorem importFromRequests_all {P : Request → Prop} (path : ModulePath) (names : List Alias)
    (h : ∀ q ∈ importFromRequests path names, P q) :
    Request.All P (importFromRequests path names) := by
  refine .flat (fun q hq => ?_) h
  unfold importFromRequests at hq
  split at hq
  · rcases List.mem_append.mp hq with hq | hq
    · rcases List.mem_cons.mp hq with rfl | hq
      · rfl
      · obtain rfl := List.mem_singleton.mp hq
        rfl
    · obtain ⟨m, -, hq⟩ := List.mem_flatMap.mp hq
      rcases List.mem_cons.mp hq with rfl | hq
      · rfl
      · obtain rfl := List.mem_singleton.mp hq
        rfl
  · rcases List.mem_append.mp hq with hq | hq
    · obtain ⟨path, -, rfl⟩ := List.mem_map.mp hq
      rfl
    · obtain ⟨m, -, hq⟩ := List.mem_flatMap.mp hq
      rcases List.mem_cons.mp hq with rfl | hq
      · rfl
      · obtain rfl := List.mem_singleton.mp hq
        rfl

section Walk

variable {P : Request → Prop}

theorem importRequests_all (hP : ∀ q : Request, q.Simple → P q) (names : List Alias)
    (h : ∀ a ∈ names, ∀ q ∈ a.path.requests, P q) :
    Request.All P (importRequests names) := by
  refine .flat (fun q hq => ?_) fun q hq => ?_
  all_goals
    obtain ⟨a, ha, hq⟩ := List.mem_flatMap.mp hq
    rcases List.mem_append.mp hq with hq | hq
  · obtain ⟨path, -, rfl⟩ := List.mem_map.mp hq
    rfl
  · obtain ⟨x, -, rfl⟩ := List.mem_map.mp hq
    rfl
  · exact h a ha q hq
  · obtain ⟨x, -, rfl⟩ := List.mem_map.mp hq
    exact hP _ trivial

mutual

theorem Stmt.requests_all (hP : ∀ q : Request, q.Simple → P q) (module : String) :
    (s : Stmt) → (∀ k ∈ s.parts, k.Admits P) →
    Request.All P (s.requests module)
  | .mk _ kind => StmtKind.requests_all hP module kind

theorem StmtKind.requests_all (hP : ∀ q : Request, q.Simple → P q) (module : String) :
    (k : StmtKind) → (∀ k' ∈ k.parts, k'.Admits P) →
    Request.All P (k.requests module)
  | .assign targets value => fun _ => .append (.simple hP value.requests_simple)
      (.simple hP (Expr.targetRequestsOfAll_simple targets))
  | .augAssign (.name x) _ value => fun _ => .simple hP fun q hq => by
    rcases List.mem_cons.mp hq with rfl | hq
    · trivial
    · rcases List.mem_append.mp hq with hq | hq
      · exact value.requests_simple q hq
      · exact List.mem_singleton.mp hq ▸ trivial
  | .delete targets => fun _ => .simple hP (Expr.deleteRequests_simple targets)
  | .imports names => fun h => importRequests_all hP names (h _ List.mem_cons_self)
  | .importsFrom path names _ => fun h => importFromRequests_all path names (h _ List.mem_cons_self)
  | .functionDef name params body => fun h => by
    have hbody := Stmt.requestsOfBody_all hP module body fun k hk => h k (List.mem_cons_of_mem _ hk)
    have hstore : Request.All P [.store name] := .simple hP fun q hq => by
      exact List.mem_singleton.mp hq ▸ trivial
    rw [StmtKind.requests]
    cases hf : classifyFunction params body with
    | ok f => exact .append (.enter (h _ List.mem_cons_self f _ hf) hbody) hstore
    | error _ => exact hstore
  | .classDef name bases body => fun h => by
    have hbody := Stmt.requestsOfBody_all hP module body fun k hk => h k (List.mem_cons_of_mem _ hk)
    have hbases : Request.All P (Expr.requestsOfAll bases ++ [.text module]) :=
      .append (.simple hP (Expr.requestsOfAll_simple bases))
        (.simple hP fun q hq => List.mem_singleton.mp hq ▸ trivial)
    have hstore : Request.All P [.text name, .store name] := .simple hP fun q hq => by
      rcases List.mem_cons.mp hq with rfl | hq
      · trivial
      · exact List.mem_singleton.mp hq ▸ trivial
    rw [StmtKind.requests]
    cases hvars : classifyClass body with
    | ok vars =>
      exact .append (.append hbases (.enter (h _ List.mem_cons_self vars.globals _) hbody)) hstore
    | error _ => exact .append (.append hbases (.simple hP nofun)) hstore
  | .forEach target iter body orelse => fun h => .append (.append (.append
      (.simple hP iter.requests_simple) (.simple hP target.targetRequests_simple))
      (Stmt.requestsOfBody_all hP module body fun k hk => h k (List.mem_cons_of_mem _
        (List.mem_append_left _ hk))))
      (Stmt.requestsOfBody_all hP module orelse fun k hk => h k (List.mem_cons_of_mem _
        (List.mem_append_right _ hk)))
  | .whileLoop test body orelse | .branch test body orelse => fun h => .append (.append
      (.simple hP test.requests_simple)
      (Stmt.requestsOfBody_all hP module body fun k hk => h k (List.mem_cons_of_mem _
        (List.mem_append_left _ hk))))
      (Stmt.requestsOfBody_all hP module orelse fun k hk => h k (List.mem_cons_of_mem _
        (List.mem_append_right _ hk)))
  | .ret (some value) | .expr value => fun _ => .simple hP value.requests_simple
  | .augAssign (.str _) _ _ | .augAssign (.int _) _ _ | .augAssign (.tuple _) _ _
  | .augAssign (.list _) _ _ | .augAssign (.attr _ _) _ _ | .augAssign (.call _ _) _ _
  | .augAssign (.binop _ _ _) _ _ | .augAssign (.yield _) _ _ | .global _ | .withItems _ _
  | .tryExcept _ _ _ _ | .ret none | .breakLoop | .continueLoop | .pass => fun _ =>
      .simple hP nofun

/-- A property of all requests of a module, from what its parts admit. -/
theorem Stmt.requestsOfBody_all (hP : ∀ q : Request, q.Simple → P q) (module : String) :
    (body : List Stmt) → (∀ k ∈ Stmt.partsOfBody body, k.Admits P) →
    Request.All P (Stmt.requestsOfBody module body)
  | [] => fun _ => .simple hP nofun
  | s :: rest => fun h => .append
      (Stmt.requests_all hP module s fun k hk => h k (List.mem_append_left _ hk))
      (Stmt.requestsOfBody_all hP module rest fun k hk => h k (List.mem_append_right _ hk))

end

end Walk

/-- A path of which every component is one of some names. -/
def PathFrom (ids : List String) (path : String) : Prop :=
  ∃ parts, (∀ part ∈ parts, part ∈ ids) ∧ path = "/".intercalate parts

/-- The names that a request shows, other than those of variables that it looks up, are among given
ones. -/
def Request.From (ids : List String) : Request → Prop
  | library path => PathFrom ids path
  | native path _ => path = "reflect" ∨ PathFrom ids path
  | member name => name ∈ ids
  | enter (.function f) _ => ∀ v ∈ f.vars.toList, v.name ∈ ids
  | enter .module _ | enter (.classBody _) _ | read _ | store _ | delete _ | text _ => True

theorem ModulePath.prefixesAfter_from {ids parts : List String} (h : ∀ part ∈ parts, part ∈ ids) :
    ∀ {before : List String}, (∀ part ∈ before, part ∈ ids) →
      ∀ path ∈ prefixesAfter before parts, PathFrom ids path := by
  induction parts with
  | nil =>
    intro before _ path hpath
    cases hpath
  | cons part rest ih =>
    intro before hbefore path hpath
    have hnext : ∀ x ∈ before ++ [part], x ∈ ids := by
      intro x hx
      rcases List.mem_append.mp hx with hx | hx
      · exact hbefore x hx
      · exact h x (List.mem_singleton.mp hx ▸ List.mem_cons_self)
    rcases List.mem_cons.mp hpath with rfl | hpath
    · exact ⟨_, hnext, rfl⟩
    · exact ih (fun x hx => h x (List.mem_cons_of_mem _ hx)) hnext path hpath

theorem ModulePath.requests_from {ids : List String} {p : ModulePath}
    (h : ∀ part ∈ p.parts, part ∈ ids) : ∀ q ∈ p.requests, q.From ids := by
  intro q hq
  obtain ⟨path, hpath, rfl⟩ := List.mem_map.mp hq
  exact prefixesAfter_from h (List.forall_mem_nil _) path hpath

theorem importFromRequests_from {ids : List String} {path : ModulePath} {names : List Alias}
    (hpath : ∀ part ∈ path.parts, part ∈ ids)
    (hnames : ∀ a ∈ names, ∀ part ∈ a.path.parts, part ∈ ids) :
    ∀ q ∈ importFromRequests path names, q.From ids := by
  intro q hq
  have hmember : ∀ m ∈ names.filterMap (·.member?), m.1 ∈ ids := by
    intro m hm
    obtain ⟨a, ha, hmember⟩ := List.mem_filterMap.mp hm
    obtain ⟨name, hlast, rfl⟩ := Option.map_eq_some_iff.mp hmember
    exact hnames a ha name (List.mem_of_getLast? hlast)
  unfold importFromRequests at hq
  split at hq
  · rcases List.mem_append.mp hq with hq | hq
    · rcases List.mem_cons.mp hq with rfl | hq
      · exact .inr ⟨_, fun part h => hpath part (List.mem_of_mem_tail h), rfl⟩
      · obtain rfl := List.mem_singleton.mp hq
        exact .inl rfl
    · obtain ⟨m, hm, hq⟩ := List.mem_flatMap.mp hq
      rcases List.mem_cons.mp hq with rfl | hq
      · exact hmember m hm
      · exact List.mem_singleton.mp hq ▸ trivial
  · rcases List.mem_append.mp hq with hq | hq
    · exact ModulePath.requests_from hpath q hq
    · obtain ⟨m, -, hq⟩ := List.mem_flatMap.mp hq
      rcases List.mem_cons.mp hq with rfl | hq
      · trivial
      · exact List.mem_singleton.mp hq ▸ trivial

/-- The names that the requests of a module show are identifiers of the module. -/
theorem Stmt.requestsOfBody_from (module : String) (body : List Stmt) :
    Request.All (·.From (Stmt.identifiersOfBody body)) (Stmt.requestsOfBody module body) := by
  refine Stmt.requestsOfBody_all (fun q hq => ?_) module body fun k hk => ?_
  · cases q with
    | read _ | store _ | delete _ | text _ => trivial
    | library _ | native _ _ | member _ | enter _ _ => exact hq.elim
  · have hids : ∀ x ∈ k.identifiers, x ∈ Stmt.identifiersOfBody body :=
      fun x hx => List.mem_flatMap.mpr ⟨k, hk, hx⟩
    unfold StmtKind.Admits
    split
    · next names =>
      intro a ha
      exact ModulePath.requests_from fun part hpart =>
        hids part (List.mem_flatMap.mpr ⟨a, ha, List.mem_append_left _ hpart⟩)
    · next path names level =>
      exact importFromRequests_from (fun part hpart => hids part (List.mem_append_left _ hpart))
        fun a ha part hpart => hids part (List.mem_append_right _
          (List.mem_flatMap.mpr ⟨a, ha, List.mem_append_left _ hpart⟩))
    · next name params inner =>
      intro f reqs hf v hv
      rcases classifyFunction_name hf hv with hv | ⟨e, he, hname⟩
      · exact hids _ (List.mem_cons_of_mem _ hv)
      · obtain ⟨k', hk', hx⟩ := Stmt.name_of_eventOfBody inner he
        have hpart := Stmt.partsOfBody_subset body hk (List.mem_cons_of_mem _ hk')
        exact hname ▸ List.mem_flatMap.mpr ⟨k', hpart, hx⟩
    · intros
      trivial
    · trivial

end Goward
