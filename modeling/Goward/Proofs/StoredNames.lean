import Goward.Proofs.Classification

/-!
# Names that a body stores

The names that the code of a body stores, as its statements are lowered one by one. Lowering and
classification are two walks over the same statements: every name that the one stores is bound by an
event that the other one sees, so the classification of a function lists it.
-/

namespace Goward

/-- The name that the code of a clause stores when it imports a member. -/
def Alias.storedMember? (a : Alias) : Option String := a.path.last?.map (a.asName.getD ·)

mutual

/-- The names that the code of a statement stores in its own scope. -/
def Stmt.storedNames : Stmt → List String
  | .mk _ kind => kind.storedNames

/-- The names that the code of a statement stores in its own scope. The statements that have no code
store none. -/
def StmtKind.storedNames : StmtKind → List String
  | .assign targets _ => Expr.boundNamesAll targets
  | .augAssign target _ _ => target.boundNames
  | .imports names => names.filterMap Alias.importedName?
  | .importsFrom _ names _ => names.filterMap Alias.storedMember?
  | .functionDef name _ _ => [name]
  | .classDef name _ _ => [name]
  | .forEach target _ body orelse =>
    target.boundNames ++ Stmt.storedNamesOfBody body ++ Stmt.storedNamesOfBody orelse
  | .whileLoop _ body orelse => Stmt.storedNamesOfBody body ++ Stmt.storedNamesOfBody orelse
  | .branch _ body orelse => Stmt.storedNamesOfBody body ++ Stmt.storedNamesOfBody orelse
  | .delete _ | .global _ | .withItems _ _ | .tryExcept _ _ _ _ | .ret _ | .expr _ | .breakLoop
  | .continueLoop | .pass => []

/-- The names that the code of a body stores in its own scope, at any depth of control flow. -/
def Stmt.storedNamesOfBody : List Stmt → List String
  | [] => []
  | s :: rest => s.storedNames ++ Stmt.storedNamesOfBody rest

end

theorem Event.mem_binds {x : String} {xs : List String} : .bind x ∈ Event.binds xs ↔ x ∈ xs := by
  simp [Event.binds]

/-- A clause stores the name that its event binds. One without a name binds the name after `as`, if
it has one, and stores none. -/
theorem Alias.memberName?_of_stored {a : Alias} {x : String} (h : a.storedMember? = some x) :
    a.memberName? = some x := by
  rw [storedMember?, Option.map_eq_some_iff] at h
  obtain ⟨last, hlast, hx⟩ := h
  rw [memberName?, hlast]
  cases hname : a.asName with
  | none => simpa [hname] using hx
  | some y => simpa [hname] using hx

mutual

theorem Stmt.bind_mem_events {x : String} :
    (s : Stmt) → x ∈ s.storedNames → .bind x ∈ s.events
  | .mk span kind, h => by
    rw [Stmt.storedNames] at h
    rw [Stmt.events]
    exact kind.bind_mem_events span h

theorem StmtKind.bind_mem_events {x : String} (span : Span) :
    (kind : StmtKind) → x ∈ kind.storedNames → .bind x ∈ kind.events span
  | .assign targets _, h => by
    rw [StmtKind.storedNames] at h
    rw [StmtKind.events]
    exact Event.mem_binds.mpr h
  | .augAssign target _ _, h => by
    rw [StmtKind.storedNames] at h
    rw [StmtKind.events]
    exact Event.mem_binds.mpr h
  | .imports names, h => by
    rw [StmtKind.storedNames] at h
    rw [StmtKind.events]
    exact Event.mem_binds.mpr h
  | .importsFrom _ names _, h => by
    rw [StmtKind.storedNames] at h
    rw [StmtKind.events, Event.mem_binds]
    obtain ⟨a, ha, hx⟩ := List.mem_filterMap.mp h
    exact List.mem_filterMap.mpr ⟨a, ha, Alias.memberName?_of_stored hx⟩
  | .functionDef name _ _, h => by
    obtain rfl : x = name := by simpa [StmtKind.storedNames] using h
    simp [StmtKind.events]
  | .classDef name _ _, h => by
    obtain rfl : x = name := by simpa [StmtKind.storedNames] using h
    simp [StmtKind.events]
  | .forEach target _ body orelse, h => by
    rw [StmtKind.storedNames, List.mem_append, List.mem_append] at h
    rw [StmtKind.events, List.mem_append, List.mem_append, Event.mem_binds]
    rcases h with (h | h) | h
    · exact .inl (.inl h)
    · exact .inl (.inr (Stmt.bind_mem_eventsOfBody body h))
    · exact .inr (Stmt.bind_mem_eventsOfBody orelse h)
  | .whileLoop _ body orelse, h => by
    rw [StmtKind.storedNames, List.mem_append] at h
    rw [StmtKind.events, List.mem_append]
    rcases h with h | h
    · exact .inl (Stmt.bind_mem_eventsOfBody body h)
    · exact .inr (Stmt.bind_mem_eventsOfBody orelse h)
  | .branch _ body orelse, h => by
    rw [StmtKind.storedNames, List.mem_append] at h
    rw [StmtKind.events, List.mem_append]
    rcases h with h | h
    · exact .inl (Stmt.bind_mem_eventsOfBody body h)
    · exact .inr (Stmt.bind_mem_eventsOfBody orelse h)
  | .delete _, h | .global _, h | .withItems _ _, h | .tryExcept _ _ _ _, h | .ret _, h
  | .expr _, h | .breakLoop, h | .continueLoop, h | .pass, h => by
    rw [StmtKind.storedNames] at h
    cases h

theorem Stmt.bind_mem_eventsOfBody {x : String} :
    (body : List Stmt) → x ∈ Stmt.storedNamesOfBody body → .bind x ∈ Stmt.eventsOfBody body
  | [], h => by
    rw [Stmt.storedNamesOfBody] at h
    cases h
  | s :: rest, h => by
    rw [Stmt.storedNamesOfBody, List.mem_append] at h
    rw [Stmt.eventsOfBody, List.mem_append]
    rcases h with h | h
    · exact .inl (s.bind_mem_events h)
    · exact .inr (Stmt.bind_mem_eventsOfBody rest h)

end

/-- The classification of a function lists every name that the code of its body stores. -/
theorem classifyFunction_knows {params : Parameters} {body : List Stmt} {f : FunctionVars}
    (h : classifyFunction params body = .ok f) {x : String}
    (hx : x ∈ Stmt.storedNamesOfBody body) : f.vars.Knows x := by
  obtain ⟨args, -, hvars, -⟩ := classifyFunction_ok h
  exact VarMap.observeAll_knows hvars (Stmt.bind_mem_eventsOfBody body hx)

end Goward
