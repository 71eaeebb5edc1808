import Goward.Proofs.Classification

/-!
# Where a body yields

The expressions that a body evaluates in its own scope, each with the place where it stands, and the
function and class bodies that are nested in it. A `yield` anywhere in such an expression belongs to
the body; one in a nested body does not. Classification looks at the values only: targets and the
bases of classes are evaluated in the same scope, but it passes over them.
-/

namespace Goward

/-- A `yield` occurs in an expression. -/
inductive Expr.HasYield : Expr → Prop
  | here (value : Option Expr) : HasYield (.yield value)
  | tuple {elts : List Expr} {e : Expr} : e ∈ elts → HasYield e → HasYield (.tuple elts)
  | list {elts : List Expr} {e : Expr} : e ∈ elts → HasYield e → HasYield (.list elts)
  | obj {obj : Expr} {name : String} : HasYield obj → HasYield (.attr obj name)
  | fn {fn : Expr} {args : List Expr} : HasYield fn → HasYield (.call fn args)
  | arg {fn : Expr} {args : List Expr} {e : Expr} :
    e ∈ args → HasYield e → HasYield (.call fn args)
  | left {left right : Expr} {op : BinOp} : HasYield left → HasYield (.binop left op right)
  | right {left right : Expr} {op : BinOp} : HasYield right → HasYield (.binop left op right)

/-- What an expression is to the statement that it is part of. -/
inductive Place
  /-- A value, a test, an iterable, or something that is deleted, entered or caught. -/
  | value
  /-- What an assignment, a loop or a `with` item stores into. -/
  | target
  /-- A base of a nested class. -/
  | base
  deriving DecidableEq

/-- The body of a function, a class or a module. -/
structure CodeBlock where
  isFunction : Bool
  body : List Stmt

/-- Puts expressions at a place. -/
def Place.all (p : Place) (es : List Expr) : List (Place × Expr) := es.map (p, ·)

mutual

/-- The expressions that a statement evaluates in its own scope. -/
def Stmt.expressions : Stmt → List (Place × Expr)
  | .mk _ kind => kind.expressions

/-- The expressions that a statement evaluates in its own scope. -/
def StmtKind.expressions : StmtKind → List (Place × Expr)
  | .assign targets value => (.value, value) :: Place.target.all targets
  | .augAssign target _ value => [(.target, target), (.value, value)]
  | .delete targets => Place.value.all targets
  | .classDef _ bases _ => Place.base.all bases
  | .forEach target iter body orelse =>
    (.value, iter) :: (.target, target) ::
      (Stmt.expressionsOfBody body ++ Stmt.expressionsOfBody orelse)
  | .whileLoop test body orelse =>
    (.value, test) :: (Stmt.expressionsOfBody body ++ Stmt.expressionsOfBody orelse)
  | .branch test body orelse =>
    (.value, test) :: (Stmt.expressionsOfBody body ++ Stmt.expressionsOfBody orelse)
  | .withItems items body =>
    Place.value.all (items.map (·.context)) ++ Place.target.all (items.filterMap (·.target)) ++
      Stmt.expressionsOfBody body
  | .tryExcept body handlers orelse finalbody =>
    Stmt.expressionsOfBody body ++ Handler.expressionsOfAll handlers ++
      Stmt.expressionsOfBody orelse ++ Stmt.expressionsOfBody finalbody
  | .ret value => Place.value.all value.toList
  | .expr value => [(.value, value)]
  | .global _ | .imports _ | .importsFrom _ _ _ | .functionDef _ _ _ | .breakLoop | .continueLoop
  | .pass => []

/-- The expressions that an exception handler evaluates in its own scope. -/
def Handler.expressions : Handler → List (Place × Expr)
  | .mk type _ body => Place.value.all type.toList ++ Stmt.expressionsOfBody body

/-- The expressions that a body evaluates in its own scope. -/
def Stmt.expressionsOfBody : List Stmt → List (Place × Expr)
  | [] => []
  | s :: rest => s.expressions ++ Stmt.expressionsOfBody rest

/-- The expressions that some exception handlers evaluate in their own scope. -/
def Handler.expressionsOfAll : List Handler → List (Place × Expr)
  | [] => []
  | h :: rest => h.expressions ++ Handler.expressionsOfAll rest

end

mutual

/-- The bodies that a statement nests, through control flow. -/
def Stmt.blocks : Stmt → List CodeBlock
  | .mk _ kind => kind.blocks

/-- The bodies that a statement nests, through control flow. -/
def StmtKind.blocks : StmtKind → List CodeBlock
  | .functionDef _ _ body => [⟨true, body⟩]
  | .classDef _ _ body => [⟨false, body⟩]
  | .forEach _ _ body orelse => Stmt.blocksOfBody body ++ Stmt.blocksOfBody orelse
  | .whileLoop _ body orelse => Stmt.blocksOfBody body ++ Stmt.blocksOfBody orelse
  | .branch _ body orelse => Stmt.blocksOfBody body ++ Stmt.blocksOfBody orelse
  | .withItems _ body => Stmt.blocksOfBody body
  | .tryExcept body handlers orelse finalbody =>
    Stmt.blocksOfBody body ++ Handler.blocksOfAll handlers ++ Stmt.blocksOfBody orelse ++
      Stmt.blocksOfBody finalbody
  | .assign _ _ | .augAssign _ _ _ | .delete _ | .global _ | .imports _ | .importsFrom _ _ _
  | .ret _ | .expr _ | .breakLoop | .continueLoop | .pass => []

/-- The bodies that an exception handler nests. -/
def Handler.blocks : Handler → List CodeBlock
  | .mk _ _ body => Stmt.blocksOfBody body

/-- The bodies that a body nests directly. -/
def Stmt.blocksOfBody : List Stmt → List CodeBlock
  | [] => []
  | s :: rest => s.blocks ++ Stmt.blocksOfBody rest

/-- The bodies that some exception handlers nest. -/
def Handler.blocksOfAll : List Handler → List CodeBlock
  | [] => []
  | h :: rest => h.blocks ++ Handler.blocksOfAll rest

end

/-- A `yield` occurs at a place among some expressions. -/
def YieldsAt (p : Place) (es : List (Place × Expr)) : Prop := ∃ e, (p, e) ∈ es ∧ e.HasYield

/-- A `yield` occurs among some expressions, wherever they stand. -/
def Yields (es : List (Place × Expr)) : Prop := ∃ p, YieldsAt p es

namespace CodeBlock

/-- A `yield` belongs to the body. -/
def Yields (b : CodeBlock) : Prop := Goward.Yields (Stmt.expressionsOfBody b.body)

/-- A `yield` that belongs to the body stands in a value. -/
def YieldsValue (b : CodeBlock) : Prop := YieldsAt .value (Stmt.expressionsOfBody b.body)

/-- The body is another one, or it is nested in it at some depth. -/
inductive Within : CodeBlock → CodeBlock → Prop
  | self (b : CodeBlock) : Within b b
  | nested {d c b : CodeBlock} : c ∈ Stmt.blocksOfBody b.body → Within d c → Within d b

end CodeBlock

/-! ### Classification sees the values -/

theorem yieldsAt_append {p : Place} {es es' : List (Place × Expr)} :
    YieldsAt p (es ++ es') ↔ YieldsAt p es ∨ YieldsAt p es' := by
  simp [YieldsAt, or_and_right, exists_or]

theorem yieldsAt_cons {p q : Place} {e : Expr} {es : List (Place × Expr)} :
    YieldsAt p ((q, e) :: es) ↔ (p = q ∧ e.HasYield) ∨ YieldsAt p es := by
  simp only [YieldsAt, List.mem_cons, Prod.mk.injEq, or_and_right, exists_or]
  apply or_congr_left
  constructor
  · rintro ⟨_, ⟨rfl, rfl⟩, h⟩
    exact ⟨rfl, h⟩
  · rintro ⟨rfl, h⟩
    exact ⟨e, ⟨rfl, rfl⟩, h⟩

@[simp] theorem yieldsAt_nil {p : Place} : ¬YieldsAt p [] := by simp [YieldsAt]

theorem yieldsAt_all {p q : Place} {es : List Expr} :
    YieldsAt p (q.all es) ↔ p = q ∧ ∃ e ∈ es, e.HasYield := by
  simp only [YieldsAt, Place.all, List.mem_map, Prod.mk.injEq]
  constructor
  · rintro ⟨e, ⟨e', he, rfl, rfl⟩, h⟩
    exact ⟨rfl, e', he, h⟩
  · rintro ⟨rfl, e, he, h⟩
    exact ⟨e, ⟨e, he, rfl, rfl⟩, h⟩

namespace Expr

mutual

theorem yields_iff : (e : Expr) → (e.yields = true ↔ e.HasYield)
  | .yield value => by simpa [yields] using HasYield.here value
  | .tuple elts => by
    rw [yields, anyYields_iff elts]
    constructor
    · rintro ⟨e, he, h⟩
      exact .tuple he h
    · intro h
      cases h with
      | tuple he h => exact ⟨_, he, h⟩
  | .list elts => by
    rw [yields, anyYields_iff elts]
    constructor
    · rintro ⟨e, he, h⟩
      exact .list he h
    · intro h
      cases h with
      | list he h => exact ⟨_, he, h⟩
  | .attr obj _ => by
    rw [yields, yields_iff obj]
    exact ⟨.obj, fun h => by cases h; assumption⟩
  | .call fn args => by
    rw [yields, Bool.or_eq_true, yields_iff fn, anyYields_iff args]
    constructor
    · rintro (h | ⟨e, he, h⟩)
      · exact .fn h
      · exact .arg he h
    · intro h
      cases h with
      | fn h => exact .inl h
      | arg he h => exact .inr ⟨_, he, h⟩
  | .binop left op right => by
    rw [yields, Bool.or_eq_true, yields_iff left, yields_iff right]
    constructor
    · rintro (h | h)
      · exact .left h
      · exact .right h
    · intro h
      cases h with
      | left h => exact .inl h
      | right h => exact .inr h
  | .name _ | .str _ | .int _ => ⟨fun h => by simp [yields] at h, fun h => by cases h⟩

theorem anyYields_iff : (es : List Expr) → (anyYields es = true ↔ ∃ e ∈ es, e.HasYield)
  | [] => by simp [anyYields]
  | e :: rest => by
    rw [anyYields, Bool.or_eq_true, yields_iff e, anyYields_iff rest]
    simp

end

end Expr

mutual

theorem Stmt.yields_iff : (s : Stmt) → (s.yields = true ↔ YieldsAt .value s.expressions)
  | .mk _ kind => kind.yields_iff

theorem StmtKind.yields_iff :
    (kind : StmtKind) → (kind.yields = true ↔ YieldsAt .value kind.expressions)
  | .assign targets value => by
    simp [StmtKind.yields, StmtKind.expressions, yieldsAt_cons, yieldsAt_all, Expr.yields_iff]
  | .augAssign target _ value => by
    simp [StmtKind.yields, StmtKind.expressions, yieldsAt_cons, Expr.yields_iff]
  | .delete targets => by
    simp [StmtKind.yields, StmtKind.expressions, yieldsAt_all, Expr.anyYields_iff]
  | .classDef _ bases _ => by simp [StmtKind.yields, StmtKind.expressions, yieldsAt_all]
  | .forEach target iter body orelse => by
    simp [StmtKind.yields, StmtKind.expressions, yieldsAt_cons, yieldsAt_append, Expr.yields_iff,
      Stmt.anyYields_iff body, Stmt.anyYields_iff orelse, or_assoc]
  | .whileLoop test body orelse => by
    simp [StmtKind.yields, StmtKind.expressions, yieldsAt_cons, yieldsAt_append, Expr.yields_iff,
      Stmt.anyYields_iff body, Stmt.anyYields_iff orelse, or_assoc]
  | .branch test body orelse => by
    simp [StmtKind.yields, StmtKind.expressions, yieldsAt_cons, yieldsAt_append, Expr.yields_iff,
      Stmt.anyYields_iff body, Stmt.anyYields_iff orelse, or_assoc]
  | .withItems items body => by
    simp [StmtKind.yields, StmtKind.expressions, yieldsAt_append, yieldsAt_all, Expr.anyYields_iff,
      Stmt.anyYields_iff body]
  | .tryExcept body handlers orelse finalbody => by
    simp [StmtKind.yields, StmtKind.expressions, yieldsAt_append, Stmt.anyYields_iff body,
      Handler.anyYields_iff handlers, Stmt.anyYields_iff orelse, Stmt.anyYields_iff finalbody,
      or_assoc]
  | .ret value => by simp [StmtKind.yields, StmtKind.expressions, yieldsAt_all, Expr.anyYields_iff]
  | .expr value => by
    simp [StmtKind.yields, StmtKind.expressions, yieldsAt_cons, Expr.yields_iff]
  | .global _ | .imports _ | .importsFrom _ _ _ | .functionDef _ _ _ | .breakLoop | .continueLoop
  | .pass => by simp [StmtKind.yields, StmtKind.expressions]

theorem Handler.yields_iff : (h : Handler) → (h.yields = true ↔ YieldsAt .value h.expressions)
  | .mk type _ body => by
    simp [Handler.yields, Handler.expressions, yieldsAt_append, yieldsAt_all, Expr.anyYields_iff,
      Stmt.anyYields_iff body]

theorem Stmt.anyYields_iff :
    (body : List Stmt) →
      (Stmt.anyYields body = true ↔ YieldsAt .value (Stmt.expressionsOfBody body))
  | [] => by simp [Stmt.anyYields, Stmt.expressionsOfBody]
  | s :: rest => by
    simp [Stmt.anyYields, Stmt.expressionsOfBody, yieldsAt_append, s.yields_iff,
      Stmt.anyYields_iff rest]

theorem Handler.anyYields_iff :
    (hs : List Handler) →
      (Handler.anyYields hs = true ↔ YieldsAt .value (Handler.expressionsOfAll hs))
  | [] => by simp [Handler.anyYields, Handler.expressionsOfAll]
  | h :: rest => by
    simp [Handler.anyYields, Handler.expressionsOfAll, yieldsAt_append, h.yields_iff,
      Handler.anyYields_iff rest]

end

/-- What classification says about a function: it is a generator if a value of its body yields. -/
theorem isGenerator_eq {params : Parameters} {body : List Stmt} {f : FunctionVars}
    (h : classifyFunction params body = .ok f) : f.isGenerator = Stmt.anyYields body := by
  obtain ⟨-, -, -, hgenerator⟩ := classifyFunction_ok h
  exact hgenerator

end Goward
