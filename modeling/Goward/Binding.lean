import Goward.Syntax

/-!
# Binding

What a body does to names, as a sequence of events in source order: it binds a name or declares it
global. Nested control flow belongs to the body; the bodies of nested functions and classes do not,
and only their names are bound. Beside it stands the question whether a body yields, which makes its
function a generator.
-/

namespace Goward

/-- What happens to a name. -/
inductive Event
  | bind (x : String)
  /-- A `global` declaration, with the place of its statement. -/
  | global (x : String) (span : Span)
  deriving DecidableEq

/-- The name that an import statement binds for a clause. -/
def Alias.importedName? (a : Alias) : Option String := a.asName.or a.path.first?

/-- The name that an import from a module binds for a clause. -/
def Alias.memberName? (a : Alias) : Option String := a.asName.or a.path.last?

namespace Expr

mutual

/-- The names that a target binds, through tuples and lists. -/
def boundNames : Expr → List String
  | .name x => [x]
  | .tuple elts => boundNamesAll elts
  | .list elts => boundNamesAll elts
  | _ => []

/-- The names that some targets bind. -/
def boundNamesAll : List Expr → List String
  | [] => []
  | e :: rest => boundNames e ++ boundNamesAll rest

end

mutual

/-- Whether an expression holds a `yield`. -/
def yields : Expr → Bool
  | .yield _ => true
  | .tuple elts => anyYields elts
  | .list elts => anyYields elts
  | .attr obj _ => yields obj
  | .call fn args => yields fn || anyYields args
  | .binop left _ right => yields left || yields right
  | .name _ | .str _ | .int _ => false

/-- Whether some expression of a list holds a `yield`. -/
def anyYields : List Expr → Bool
  | [] => false
  | e :: rest => yields e || anyYields rest

end

end Expr

/-- Binds each of some names. -/
def Event.binds (xs : List String) : List Event := xs.map .bind

mutual

/-- The events of a statement. -/
def Stmt.events : Stmt → List Event
  | .mk span kind => StmtKind.events span kind

/-- The events of a statement at a place. -/
def StmtKind.events (span : Span) : StmtKind → List Event
  | .assign targets _ => Event.binds (Expr.boundNamesAll targets)
  | .augAssign target _ _ => Event.binds target.boundNames
  | .global names => names.map (Event.global · span)
  | .imports names => Event.binds (names.filterMap Alias.importedName?)
  | .importsFrom _ names _ => Event.binds (names.filterMap Alias.memberName?)
  | .functionDef name _ _ => [.bind name]
  | .classDef name _ _ => [.bind name]
  | .forEach target _ body orelse =>
    Event.binds target.boundNames ++ Stmt.eventsOfBody body ++ Stmt.eventsOfBody orelse
  | .whileLoop _ body orelse => Stmt.eventsOfBody body ++ Stmt.eventsOfBody orelse
  | .branch _ body orelse => Stmt.eventsOfBody body ++ Stmt.eventsOfBody orelse
  | .withItems items body =>
    Event.binds (Expr.boundNamesAll (items.filterMap (·.target))) ++ Stmt.eventsOfBody body
  | .tryExcept body handlers orelse finalbody =>
    Stmt.eventsOfBody body ++ Handler.eventsOfAll handlers ++ Stmt.eventsOfBody orelse ++
      Stmt.eventsOfBody finalbody
  | .delete _ | .ret _ | .expr _ | .breakLoop | .continueLoop | .pass => []

/-- The events of an exception handler. -/
def Handler.events : Handler → List Event
  | .mk _ name body => Event.binds name.toList ++ Stmt.eventsOfBody body

/-- The events of a body. -/
def Stmt.eventsOfBody : List Stmt → List Event
  | [] => []
  | s :: rest => s.events ++ Stmt.eventsOfBody rest

/-- The events of some exception handlers. -/
def Handler.eventsOfAll : List Handler → List Event
  | [] => []
  | h :: rest => h.events ++ Handler.eventsOfAll rest

end

mutual

/-- Whether a statement yields. -/
def Stmt.yields : Stmt → Bool
  | .mk _ kind => kind.yields

/-- Whether a statement yields in an expression that it evaluates as a value: the targets of
assignments, loops and `with` items and the bases of classes are not looked into. -/
def StmtKind.yields : StmtKind → Bool
  | .assign _ value => value.yields
  | .augAssign _ _ value => value.yields
  | .delete targets => Expr.anyYields targets
  | .forEach _ iter body orelse => iter.yields || Stmt.anyYields body || Stmt.anyYields orelse
  | .whileLoop test body orelse => test.yields || Stmt.anyYields body || Stmt.anyYields orelse
  | .branch test body orelse => test.yields || Stmt.anyYields body || Stmt.anyYields orelse
  | .withItems items body => Expr.anyYields (items.map (·.context)) || Stmt.anyYields body
  | .tryExcept body handlers orelse finalbody =>
    Stmt.anyYields body || Handler.anyYields handlers || Stmt.anyYields orelse ||
      Stmt.anyYields finalbody
  | .ret value => Expr.anyYields value.toList
  | .expr value => value.yields
  | .global _ | .imports _ | .importsFrom _ _ _ | .functionDef _ _ _ | .classDef _ _ _
  | .breakLoop | .continueLoop | .pass => false

/-- Whether an exception handler yields. -/
def Handler.yields : Handler → Bool
  | .mk type _ body => Expr.anyYields type.toList || Stmt.anyYields body

/-- Whether a body yields. -/
def Stmt.anyYields : List Stmt → Bool
  | [] => false
  | s :: rest => s.yields || Stmt.anyYields rest

/-- Whether some exception handlers yield. -/
def Handler.anyYields : List Handler → Bool
  | [] => false
  | h :: rest => h.yields || Handler.anyYields rest

end

end Goward
