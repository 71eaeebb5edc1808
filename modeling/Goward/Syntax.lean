import Goward.Source.Span

/-!
# Syntax

The statements and expressions of a module. Statements and parameters carry their place in the
source; an empty span means that the place is not known.
-/

namespace Goward

/-- A dotted path of a module, by components. -/
structure ModulePath where
  parts : List String
  deriving DecidableEq

namespace ModulePath

/-- Splits a text at its dots. -/
def ofText (s : String) : ModulePath := ⟨(s.toList.splitOn '.').map String.ofList⟩

/-- The first component, which a plain import binds. -/
def first? (p : ModulePath) : Option String := p.parts.head?

def last? (p : ModulePath) : Option String := p.parts.getLast?

/-- The components with a separator between them. -/
def join (p : ModulePath) (sep : String) : String := sep.intercalate p.parts

end ModulePath

/-- One clause of an import: what is imported, and the name after `as`. -/
structure Alias where
  path : ModulePath
  asName : Option String
  deriving DecidableEq

/-- A parameter. -/
structure Parameter where
  name : String
  span : Span
  deriving DecidableEq

/-- The parameters of a function. -/
structure Parameters where
  positional : List Parameter
  /-- Takes the further positional arguments. -/
  rest : Option Parameter
  /-- Takes the further keyword arguments. -/
  keywords : Option Parameter
  deriving DecidableEq

/-- All parameters in the order of their arguments. -/
def Parameters.toList (p : Parameters) : List Parameter :=
  p.positional ++ p.rest.toList ++ p.keywords.toList

/-- The operators. -/
inductive BinOp
  | add
  | sub
  | mul
  deriving DecidableEq

/-- Expressions. -/
inductive Expr
  | name (x : String)
  | str (s : String)
  | int (n : Int)
  | tuple (elts : List Expr)
  | list (elts : List Expr)
  | attr (obj : Expr) (name : String)
  | call (fn : Expr) (args : List Expr)
  | binop (left : Expr) (op : BinOp) (right : Expr)
  | yield (value : Option Expr)

/-- An item of a `with` statement: what is entered, and the target after `as`. -/
structure WithItem where
  context : Expr
  target : Option Expr

mutual

/-- A statement with its place. -/
inductive Stmt
  | mk (span : Span) (kind : StmtKind)

/-- What a statement does. -/
inductive StmtKind
  | assign (targets : List Expr) (value : Expr)
  | augAssign (target : Expr) (op : BinOp) (value : Expr)
  | delete (targets : List Expr)
  | global (names : List String)
  | imports (names : List Alias)
  | importsFrom (module : ModulePath) (names : List Alias) (level : Nat)
  | functionDef (name : String) (params : Parameters) (body : List Stmt)
  | classDef (name : String) (bases : List Expr) (body : List Stmt)
  | forEach (target iter : Expr) (body orelse : List Stmt)
  | whileLoop (test : Expr) (body orelse : List Stmt)
  | branch (test : Expr) (body orelse : List Stmt)
  | withItems (items : List WithItem) (body : List Stmt)
  | tryExcept (body : List Stmt) (handlers : List Handler) (orelse finalbody : List Stmt)
  | ret (value : Option Expr)
  | expr (value : Expr)
  | breakLoop
  | continueLoop
  | pass

/-- An exception handler. -/
inductive Handler
  | mk (type : Option Expr) (name : Option String) (body : List Stmt)

end

/-- The place of a statement. -/
def Stmt.span : Stmt → Span
  | mk span _ => span

/-- What a statement does. -/
def Stmt.kind : Stmt → StmtKind
  | mk _ kind => kind

end Goward
