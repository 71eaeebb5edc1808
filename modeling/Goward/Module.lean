import Goward.Layout.Body
import Goward.Lowering.Stmt

/-!
# Modules

A module becomes one Go file: its package and imports, the strings that are made once, and a code
object for its body, which is registered under the name of the module. The support runtime is always
imported.
-/

namespace Goward

open Goward.Code Goward.Layout

/-- A module after lowering. -/
structure LoweredModule where
  registry : Registry
  /-- The scratch variables of the body. -/
  temps : List Temp
  body : List Step

namespace LoweredModule

/-- Declares a string that is made once. -/
def stringDeclaration (s : String) : Op :=
  .raw ("var " ++ (StringRef.shared s).text ++ " = πg.InternStr(" ++ Text.quote s ++ ")")

/-- The code object of the body and its registration. -/
def initOps (m : LoweredModule) (o : Options) : List Op :=
  let code := Step.linearAll m.body {}
  let run := render 0 (resumable code.2.checkpoints (codeOps o.filename code.1))
  [.raw ("Code = " ++ codeOpening o.filename "<module>"),
    .within 1 [.raw (render 0 (declarations m.temps)), .raw run], .raw "\x7d)",
    .raw ("πg.RegisterModule(" ++ Text.quote o.moduleName ++ ", Code)")]

/-- The operations that write the file. -/
def ops (m : LoweredModule) (o : Options) : List Op :=
  [.raw ("package " ++ o.packageName)] ++ Op.imports m.registry.imports ++
    m.registry.strings.map stringDeclaration ++
    [.raw "var Code *πg.Code", .raw "func init() \x7b", .within 1 (m.initOps o), .raw "\x7d"]

/-- The Go file. -/
def text (m : LoweredModule) (o : Options) : String := render 0 (m.ops o)

end LoweredModule

/-- The scope tree from which every module starts. -/
def initialTree (o : Options) : ScopeTree :=
  ((ScopeTree.ofOptions o).addNative Package.runtimeName).2

/-- Lowers a module. -/
def lowerModule (cx : Context) (body : List Stmt) : Except Error LoweredModule := do
  let build := Build.bodyWithEnd false (lowerBody cx ScopeTree.moduleId false body)
  let built ← build.run (initialTree cx.options)
  return {
    registry := built.tree.registry
    temps := (built.tree.resources ScopeTree.moduleId).pool.temps
    body := built.value }

/-- The Go file of a module. If the source text is given, the code holds its lines as comments. -/
def compile (o : Options) (source : Option String) (body : List Stmt) : Except Error String := do
  let m ← lowerModule { options := o, source := source.map .ofText } body
  return m.text o

end Goward
