import Goward.Lowering.Stmt
import Goward.Proofs.Build

/-!
# Constructs and their faults

What a module is made of as far as it decides whether there is code for the module: the constructs
in its bodies, at any depth, each with the body that it belongs to, the loop that may be around it
and the statements that it stands in. A construct that is not supported where it stands has a fault.
The constructs of a body are listed in the order in which code is generated for them.
-/

namespace Goward

/-- What is around a construct. -/
structure Surroundings where
  /-- The body that the construct belongs to. -/
  scope : ScopeKind
  /-- Whether it is in the body of a loop of the same scope. -/
  inLoop : Bool

/-- A construct that may have a fault. -/
inductive Construct
  | withStatement
  | tryStatement
  /-- A `return`. -/
  | returning (value : Option Expr)
  /-- A `break` or a `continue`. -/
  | loopControl (keyword : String)
  | deleting (target : Expr)
  /-- Storing into what a target holds after tuples and lists are taken apart. -/
  | storing (leaf : Expr)
  /-- An augmented assignment. -/
  | updating (target : Expr)
  | evaluating (e : Expr)
  /-- An import of a module. -/
  | loading (path : ModulePath)
  /-- An import from a module. -/
  | loadingFrom (path : ModulePath) (level : Nat)
  | function (params : Parameters) (body : List Stmt)
  | classBody (body : List Stmt)

/-- Whether a scope of this kind is the body of a generator. -/
def ScopeKind.isGenerator : ScopeKind → Bool
  | .function f => f.isGenerator
  | .module | .classBody _ => false

/-- The error that a computation ends with. -/
def errorOf? {α : Type} : Except Error α → Option Error
  | .error e => some e
  | .ok _ => none

/-- The error of a construct that is not supported where it stands. -/
def Construct.fault? (around : Surroundings) : Construct → Option Error
  | withStatement => some { cause := .unsupported "'with' statement" }
  | tryStatement => some { cause := .unsupported "'try' statement" }
  | returning value =>
    match around.scope with
    | .function f =>
      if f.isGenerator && value.isSome then
        some { cause := .unsupported "'return' with a value inside a generator" }
      else none
    | .module | .classBody _ => some { cause := .returnOutsideFunction }
  | loopControl keyword =>
    if around.inLoop then none else some { cause := .loopControlOutsideLoop keyword }
  | deleting (.name x) =>
    match around.scope with
    | .function f =>
      if (f.vars.find? x).isSome then none else some { cause := .deleteNonexistentLocal x }
    | .module | .classBody _ => none
  | deleting _ => some { cause := .unsupported "deleting this target" }
  | storing (.name _) | storing (.attr _ _) => none
  | storing _ => some { cause := .unsupported "assignment to this target" }
  | updating (.name _) => none
  | updating _ => some { cause := .unsupported "augmented assignment to this target" }
  | evaluating e =>
    if e.yields && !around.scope.isGenerator then some { cause := yieldOutside } else none
  | loading path =>
    if path.parts.isEmpty then some { cause := .unsupported "import of an empty module path" }
    else none
  | loadingFrom path level =>
    if level ≠ 0 then some { cause := .unsupported "relative import" }
    else if path.parts = [nativeRoot] then
      some { cause := .unsupported ("import from bare '" ++ nativeRoot ++ "'") }
    else if path.parts.isEmpty then
      some { cause := .unsupported "import of an empty module path" }
    else none
  | function params body => errorOf? (classifyFunction params body)
  | classBody body => errorOf? (classifyClass body)

/-! ### Where constructs stand -/

/-- The error as it leaves a statement with the given place. -/
def Error.leaving (e : Error) (span : Span) : Error := if span.isEmpty then e else e.locate span

/-- A construct and where it stands. -/
structure Site where
  construct : Construct
  around : Surroundings
  /-- The places of the statements that it stands in, from the inside out, up to the body that is
  looked at. -/
  places : List Span := []

namespace Site

/-- The error that the construct is reported with. -/
def fault? (s : Site) : Option Error :=
  (s.construct.fault? s.around).map fun e => s.places.foldl Error.leaving e

/-- The site as one in a statement with the given place. -/
def within (s : Site) (span : Span) : Site := { s with places := s.places ++ [span] }

/-- The error of the first construct that has a fault. -/
def first? (sites : List Site) : Option Error := sites.findSome? fault?

end Site

mutual

/-- What a target holds after tuples and lists are taken apart. -/
def Expr.leaves : Expr → List Expr
  | .tuple elts => leavesOfAll elts
  | .list elts => leavesOfAll elts
  | e => [e]

/-- What some targets hold after tuples and lists are taken apart. -/
def Expr.leavesOfAll : List Expr → List Expr
  | [] => []
  | e :: rest => leaves e ++ leavesOfAll rest

end

/-- The object that an attribute is one of. -/
def Expr.object? : Expr → Option Expr
  | .attr obj _ => some obj
  | .name _ | .str _ | .int _ | .tuple _ | .list _ | .call _ _ | .binop _ _ _ | .yield _ => none

namespace Surroundings

variable (around : Surroundings)

/-- A construct that stands in no statement. -/
def site (c : Construct) : Site := { construct := c, around }

/-- Evaluates expressions. -/
def evaluations (es : List Expr) : List Site := es.map fun e => around.site (.evaluating e)

/-- Stores into a leaf of a target. The object of an attribute is evaluated. -/
def storesLeaf (leaf : Expr) : List Site :=
  around.site (.storing leaf) :: around.evaluations leaf.object?.toList

/-- Stores into a target. -/
def stores (target : Expr) : List Site := target.leaves.flatMap around.storesLeaf

/-- Stores into targets, one after another. -/
def storesAll (targets : List Expr) : List Site :=
  (Expr.leavesOfAll targets).flatMap around.storesLeaf

end Surroundings

mutual

/-- The constructs of a statement. -/
def Stmt.sites (around : Surroundings) : Stmt → List Site
  | .mk span kind => (kind.sites around).map (·.within span)

/-- The constructs of a statement. What there is in a function or a class depends on where its names
live, so for one that cannot be classified there is nothing but that. -/
def StmtKind.sites (around : Surroundings) : StmtKind → List Site
  | .assign targets value => around.evaluations [value] ++ around.storesAll targets
  | .augAssign target _ value => around.site (.updating target) :: around.evaluations [value]
  | .delete targets => targets.map fun e => around.site (.deleting e)
  | .imports names => names.map fun a => around.site (.loading a.path)
  | .importsFrom path _ level => [around.site (.loadingFrom path level)]
  | .functionDef _ params body =>
    around.site (.function params body) ::
      match classifyFunction params body with
      | .ok f => Stmt.sitesOfBody ⟨.function f, false⟩ body
      | .error _ => []
  | .classDef _ bases body =>
    around.site (.classBody body) ::
      match classifyClass body with
      | .ok vars =>
        around.evaluations bases ++ Stmt.sitesOfBody ⟨.classBody vars.globals, false⟩ body
      | .error _ => []
  | .forEach target iter body orelse =>
    around.evaluations [iter] ++ (around.stores target ++
      (Stmt.sitesOfBody { around with inLoop := true } body ++ Stmt.sitesOfBody around orelse))
  | .whileLoop test body orelse =>
    around.evaluations [test] ++
      (Stmt.sitesOfBody { around with inLoop := true } body ++ Stmt.sitesOfBody around orelse)
  | .branch test body orelse =>
    around.evaluations [test] ++ (Stmt.sitesOfBody around body ++ Stmt.sitesOfBody around orelse)
  | .withItems items body =>
    around.site .withStatement :: (items.flatMap fun item =>
      around.evaluations [item.context] ++ around.storesAll item.target.toList) ++
        Stmt.sitesOfBody around body
  | .tryExcept body handlers orelse finalbody =>
    around.site .tryStatement :: (Stmt.sitesOfBody around body ++
      Handler.sitesOfAll around handlers ++ Stmt.sitesOfBody around orelse ++
        Stmt.sitesOfBody around finalbody)
  | .ret value => around.site (.returning value) :: around.evaluations value.toList
  | .expr value => around.evaluations [value]
  | .breakLoop => [around.site (.loopControl "break")]
  | .continueLoop => [around.site (.loopControl "continue")]
  | .global _ | .pass => []

/-- The constructs of an exception handler. -/
def Handler.sites (around : Surroundings) : Handler → List Site
  | .mk type _ body => around.evaluations type.toList ++ Stmt.sitesOfBody around body

/-- The constructs of a body. -/
def Stmt.sitesOfBody (around : Surroundings) : List Stmt → List Site
  | [] => []
  | s :: rest => s.sites around ++ Stmt.sitesOfBody around rest

/-- The constructs of some exception handlers. -/
def Handler.sitesOfAll (around : Surroundings) : List Handler → List Site
  | [] => []
  | h :: rest => h.sites around ++ Handler.sitesOfAll around rest

end

/-- The constructs of a module. -/
def Site.ofModule (body : List Stmt) : List Site := Stmt.sitesOfBody ⟨.module, false⟩ body

namespace Site

variable {s : Site} {sites sites' : List Site} {span : Span}

@[simp] theorem first?_nil : first? [] = none := rfl

theorem first?_append : first? (sites ++ sites') = (first? sites).or (first? sites') :=
  List.findSome?_append

theorem first?_cons_of_some {e : Error} (h : s.fault? = some e) : first? (s :: sites) = some e := by
  rw [first?, List.findSome?_cons, h]

theorem first?_cons_of_none (h : s.fault? = none) : first? (s :: sites) = first? sites := by
  rw [first?, List.findSome?_cons, h, first?]

theorem fault?_site (around : Surroundings) (c : Construct) :
    (around.site c).fault? = c.fault? around := Option.map_id'

theorem fault?_within : (s.within span).fault? = s.fault?.map (·.leaving span) := by
  simp only [fault?, within, List.foldl_append, List.foldl_cons, List.foldl_nil, Option.map_map]
  rfl

theorem first?_within :
    first? (sites.map (·.within span)) = (first? sites).map (·.leaving span) := by
  induction sites with
  | nil => rfl
  | cons s rest ih =>
    rw [List.map_cons]
    cases hs : s.fault? with
    | none =>
      have hwithin : (s.within span).fault? = none := by rw [fault?_within, hs, Option.map_none]
      rw [first?_cons_of_none hs, first?_cons_of_none hwithin, ih]
    | some e =>
      have hwithin : (s.within span).fault? = some (e.leaving span) := by
        rw [fault?_within, hs, Option.map_some]
      rw [first?_cons_of_some hs, first?_cons_of_some hwithin, Option.map_some]

theorem first?_eq_none_iff : first? sites = none ↔ ∀ s ∈ sites, s.fault? = none :=
  List.findSome?_eq_none_iff

/-- The first fault is that of a construct with none before it. -/
theorem first?_eq_some_iff {e : Error} : first? sites = some e ↔
    ∃ before s after, sites = before ++ s :: after ∧ (∀ q ∈ before, q.fault? = none) ∧
      s.fault? = some e := by
  rw [first?, List.findSome?_eq_some_iff]
  constructor
  · rintro ⟨before, s, after, hsplit, hsome, hnone⟩
    exact ⟨before, s, after, hsplit, hnone, hsome⟩
  · rintro ⟨before, s, after, hsplit, hnone, hsome⟩
    exact ⟨before, s, after, hsplit, hsome, hnone⟩

end Site

@[simp] theorem Error.leaving_cause (e : Error) (span : Span) :
    (e.leaving span).cause = e.cause := by
  unfold leaving locate
  split
  · rfl
  · split <;> rfl

end Goward
