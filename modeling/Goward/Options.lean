import Goward.Text.Basic

/-!
# Options

Where the Go package of a unit lives, and which runtime and library it is linked with.
-/

namespace Goward

/-- The options of one unit. -/
structure Options where
  /-- Import path of the Go package that is generated. -/
  fullPackageName : String := "__main__"
  /-- Import path of the support runtime. -/
  runtime : String := "github.com/google/grumpy/runtime"
  /-- Import path below which the packages of modules live. -/
  libroot : String := "__python__"
  /-- Name of the source file. -/
  filename : String := "<stdin>"
  deriving DecidableEq

namespace Options

/-- The name in the package clause: the last component of the import path. -/
def packageName (o : Options) : String :=
  String.ofList ((o.fullPackageName.toList.splitOn '/').getLastD [])

/-- The dotted name of the module: its import path below the library root, or the whole path if it
is not below it. -/
def moduleName (o : Options) : String :=
  let path := o.fullPackageName.toList
  let root := (o.libroot ++ "/").toList
  let below := if root.isPrefixOf path then path.drop root.length else path
  Text.substituteChar '/' "." (String.ofList below)

end Options

end Goward
