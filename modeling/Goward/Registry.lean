import Goward.Options
import Goward.Text.Basic
import Goward.Text.Quoted

/-!
# Registry

What all scopes of a unit share: the Go packages that its code imports, in the order of their paths,
and the strings that are made once for the whole unit, in order.
-/

namespace Goward

/-- A Go package: its import path and the name that the code uses for it. -/
structure Package where
  name : String
  goName : String
  deriving DecidableEq

namespace Package

/-- The name of the support runtime in the code. -/
def runtimeAlias : String := "πg"

/-- The reserved name that stands for the support runtime, wherever that lives. -/
def runtimeName : String := "grumpy"

/-- A package under a name made from its path, in which a letter stands for the slash. -/
def ofPath (path : String) : Package := ⟨path, "π_" ++ Text.substituteChar '/' "Γ" path⟩

end Package

/-- How the code refers to a string. -/
inductive StringRef
  /-- A string made once for the unit. -/
  | shared (s : String)
  /-- A string made where it is used. -/
  | fresh (s : String)
  deriving DecidableEq

/-- The Go expression for a string. -/
def StringRef.text : StringRef → String
  | shared s => "ß" ++ s
  | fresh s => "πg.NewStr(" ++ Text.quote s ++ ")"

/-- The packages and shared strings of a unit. -/
structure Registry where
  runtime : String
  libroot : String
  /-- The packages, in the order of their paths. -/
  imports : List Package := []
  /-- The shared strings, in order. -/
  strings : List String := []
  deriving DecidableEq

namespace Registry

/-- The registry of a unit that has registered nothing yet. -/
def ofOptions (o : Options) : Registry := { runtime := o.runtime, libroot := o.libroot }

/-- The package registered under a path. -/
def find? (r : Registry) (path : String) : Option Package := r.imports.find? (·.name == path)

/-- Registers a package, unless its path is registered already; the first registration stays. -/
def register (r : Registry) (p : Package) : Package × Registry :=
  match r.find? p.name with
  | some known => (known, r)
  | none => (p, { r with imports := Text.insertByKey (·.name) p r.imports })

/-- Registers a package by its import path, or the support runtime by its reserved name. -/
def addNative (r : Registry) (path : String) : Package × Registry :=
  if path = Package.runtimeName then r.register ⟨r.runtime, Package.runtimeAlias⟩
  else r.register (.ofPath path)

/-- Registers a package by its path below the library root. -/
def addImport (r : Registry) (path : String) : Package × Registry :=
  r.addNative (r.libroot ++ "/" ++ path)

/-- The greatest number of bytes of a shared string. -/
def maxShared : Nat := 64

/-- Whether a string can be part of a Go name: ASCII letters, digits and underscores only. -/
def isWord (s : String) : Bool := s.toList.all fun c => c.isAlphanum || c == '_'

/-- Whether a string is made once for the unit: a short word. -/
def isSharable (s : String) : Bool := s.utf8ByteSize ≤ maxShared && isWord s

/-- Whether a string is among the shared ones. -/
def isShared (r : Registry) (s : String) : Bool := r.strings.contains s

/-- The reference to a string; a short word becomes a shared string. -/
def intern (r : Registry) (s : String) : StringRef × Registry :=
  if isSharable s then
    (.shared s,
      if r.isShared s then r else { r with strings := Text.insertByKey id s r.strings })
  else (.fresh s, r)

end Registry

end Goward
