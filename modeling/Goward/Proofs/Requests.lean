import Goward.Module
import Goward.Proofs.Registration

/-!
# Requests

What a piece of syntax asks for while it is lowered, in the order of the code: names to be read,
stored and deleted, strings, packages, and bodies to be entered. A request means something in a chain
of scopes; which strings it hands out, which packages, and how the code looks a name up follow from
it. On the other side stand the observations on code that answer the requests.
-/

namespace Goward

open Goward.Code

/-- What is asked for while code is generated. -/
inductive Request
  /-- A name is read. -/
  | read (x : String)
  /-- A value is stored in a name. -/
  | store (x : String)
  | delete (x : String)
  /-- A reference to a string. -/
  | text (s : String)
  /-- The package of a module, by its path below the library root. -/
  | library (path : String)
  /-- A Go package, and whether something of it is used. -/
  | native (path : String) (used : Bool)
  /-- A member of a Go package. -/
  | member (name : String)
  /-- The body of a definition, with what is asked for in it. -/
  | enter (kind : ScopeKind) (body : List Request)

mutual

/-- What the evaluation of an expression asks for. -/
def Expr.requests : Expr → List Request
  | .name x => [.read x]
  | .str s => [.text s]
  | .int _ => []
  | .tuple elts | .list elts => Expr.requestsOfAll elts
  | .attr obj member => obj.requests ++ [.text member]
  | .call fn args => fn.requests ++ Expr.requestsOfAll args
  | .binop left _ right => left.requests ++ right.requests
  | .yield none => []
  | .yield (some value) => value.requests

/-- What the evaluation of some expressions asks for. -/
def Expr.requestsOfAll : List Expr → List Request
  | [] => []
  | e :: rest => e.requests ++ Expr.requestsOfAll rest

end

mutual

/-- What a store into a target asks for. -/
def Expr.targetRequests : Expr → List Request
  | .name x => [.store x]
  | .attr obj member => obj.requests ++ [.text member]
  | .tuple elts | .list elts => Expr.targetRequestsOfAll elts
  | .str _ | .int _ | .call _ _ | .binop _ _ _ | .yield _ => []

/-- What stores into some targets ask for. -/
def Expr.targetRequestsOfAll : List Expr → List Request
  | [] => []
  | e :: rest => e.targetRequests ++ Expr.targetRequestsOfAll rest

end

/-- What the deletion of targets asks for. -/
def Expr.deleteRequests (targets : List Expr) : List Request :=
  targets.filterMap fun
    | .name x => some (.delete x)
    | _ => none

/-- The paths that the given parts begin, after the parts before them. -/
def ModulePath.prefixesAfter (before : List String) : List String → List String
  | [] => []
  | part :: rest => "/".intercalate (before ++ [part]) :: prefixesAfter (before ++ [part]) rest

/-- What it takes to load a module: its package and those of the modules above it. -/
def ModulePath.requests (p : ModulePath) : List Request :=
  (prefixesAfter [] p.parts).map .library

/-- The name that a plain import binds. -/
def Alias.bound? (a : Alias) : Option String := a.asName.or a.path.first?

/-- The member that a clause imports, and the name that it binds. -/
def Alias.member? (a : Alias) : Option (String × String) :=
  a.path.last?.map fun name => (name, a.asName.getD name)

/-- Whether a path stands for a Go package. -/
def ModulePath.isNative (p : ModulePath) : Bool := p.first? == some nativeRoot

/-- What an import from a path asks for. -/
def importFromRequests (path : ModulePath) (names : List Alias) : List Request :=
  let members := names.filterMap (·.member?)
  if path.isNative then
    let used := !members.isEmpty
    [.native ("/".intercalate path.parts.tail) used, .native "reflect" used] ++
      members.flatMap fun m => [.member m.1, .store m.2]
  else path.requests ++ members.flatMap fun m => [.text m.1, .store m.2]

/-- What an import of modules asks for. -/
def importRequests (names : List Alias) : List Request :=
  names.flatMap fun a => a.path.requests ++ a.bound?.toList.map .store

mutual

/-- What a statement asks for; the module has the given name. -/
def Stmt.requests (module : String) : Stmt → List Request
  | .mk _ kind => kind.requests module

/-- What a statement asks for; the module has the given name. -/
def StmtKind.requests (module : String) : StmtKind → List Request
  | .assign targets value => value.requests ++ Expr.targetRequestsOfAll targets
  | .augAssign (.name x) _ value => .read x :: (value.requests ++ [.store x])
  | .delete targets => Expr.deleteRequests targets
  | .imports names => importRequests names
  | .importsFrom path names _ => importFromRequests path names
  | .functionDef name params body =>
    (match classifyFunction params body with
      | .ok f => [.enter (.function f) (Stmt.requestsOfBody module body)]
      | .error _ => []) ++ [.store name]
  | .classDef name bases body =>
    Expr.requestsOfAll bases ++ [.text module] ++
      (match classifyClass body with
        | .ok vars => [.enter (.classBody vars.globals) (Stmt.requestsOfBody module body)]
        | .error _ => []) ++ [.text name, .store name]
  | .forEach target iter body orelse =>
    iter.requests ++ target.targetRequests ++ Stmt.requestsOfBody module body ++
      Stmt.requestsOfBody module orelse
  | .whileLoop test body orelse | .branch test body orelse =>
    test.requests ++ Stmt.requestsOfBody module body ++ Stmt.requestsOfBody module orelse
  | .ret (some value) | .expr value => value.requests
  | .augAssign _ _ _ | .global _ | .withItems _ _ | .tryExcept _ _ _ _ | .ret none | .breakLoop
  | .continueLoop | .pass => []

/-- What the statements of a body ask for; the module has the given name. -/
def Stmt.requestsOfBody (module : String) : List Stmt → List Request
  | [] => []
  | s :: rest => s.requests module ++ Stmt.requestsOfBody module rest

end

/-! ### What requests mean -/

namespace Request

/-- The body that a request enters. -/
def entered? : Request → Option (ScopeKind × List Request)
  | enter kind body => some (kind, body)
  | _ => none

/-- How the code looks a name up for a request in a chain of scopes. -/
def lookups (c : ScopeChain) : Request → List Call
  | read x =>
    match c.access x with
    | .slot => [.checkLocal x]
    | .globals => [.resolveGlobal (.of x)]
    | .classBody closure => [.resolveClass (if closure then some x else none) (.of x)]
  | delete x => if c.home? x = some .slot then [.checkLocal x] else []
  | store _ | text _ | library _ | native _ _ | member _ | enter _ _ => []

mutual

/-- The strings to which references are handed out for a request, at any depth. -/
def strings (c : ScopeChain) : Request → List String
  | read x => if c.access x = .slot then [] else [x]
  | store x | delete x => if c.home? x = some .slot then [] else [x]
  | text s => [s]
  | library _ | native _ _ | member _ => []
  | enter kind body => stringsOfAll (kind :: c) body

/-- The strings to which references are handed out for some requests, at any depth. -/
def stringsOfAll (c : ScopeChain) : List Request → List String
  | [] => []
  | q :: rest => q.strings c ++ stringsOfAll c rest

end

mutual

/-- A request, followed by those in the body that it enters, at any depth. -/
def deep : Request → List Request
  | enter kind body => enter kind body :: deepAll body
  | q => [q]

/-- Some requests, each followed by those in the body that it enters, at any depth. -/
def deepAll : List Request → List Request
  | [] => []
  | q :: rest => q.deep ++ deepAll rest

end

/-- The package that is handed out for a request, and whether it is used. -/
def package? (o : Options) : Request → Option (Package × Bool)
  | library path => some (Registry.packageFor o (o.libroot ++ "/" ++ path), true)
  | native path used => some (Registry.packageFor o path, used)
  | read _ | store _ | delete _ | text _ | member _ | enter _ _ => none

/-- The packages that are handed out for some requests, at any depth, and whether they are used. -/
def packagesOfAll (o : Options) (reqs : List Request) : List (Package × Bool) :=
  (deepAll reqs).filterMap (·.package? o)

theorem stringsOfAll_eq_flatMap (c : ScopeChain) (reqs : List Request) :
    stringsOfAll c reqs = reqs.flatMap (·.strings c) := by
  induction reqs with
  | nil => rfl
  | cons q rest ih => rw [stringsOfAll, List.flatMap_cons, ih]

theorem stringsOfAll_append (c : ScopeChain) (a b : List Request) :
    stringsOfAll c (a ++ b) = stringsOfAll c a ++ stringsOfAll c b := by
  simp only [stringsOfAll_eq_flatMap, List.flatMap_append]

theorem deepAll_eq_flatMap (reqs : List Request) : deepAll reqs = reqs.flatMap deep := by
  induction reqs with
  | nil => rfl
  | cons q rest ih => rw [deepAll, List.flatMap_cons, ih]

theorem deepAll_append (a b : List Request) : deepAll (a ++ b) = deepAll a ++ deepAll b := by
  simp only [deepAll_eq_flatMap, List.flatMap_append]

theorem deepAll_enter (kind : ScopeKind) (body : List Request) :
    deepAll [enter kind body] = enter kind body :: deepAll body := by
  rw [deepAll, deepAll, deep, List.append_nil]

theorem packagesOfAll_append (o : Options) (a b : List Request) :
    packagesOfAll o (a ++ b) = packagesOfAll o a ++ packagesOfAll o b := by
  simp only [packagesOfAll, deepAll_append, List.filterMap_append]

theorem packagesOfAll_cons (o : Options) (q : Request) (rest : List Request) :
    packagesOfAll o (q :: rest) = packagesOfAll o [q] ++ packagesOfAll o rest :=
  packagesOfAll_append o [q] rest

theorem packagesOfAll_map {o : Options} {α : Type} {f : α → Request} {g : α → Package × Bool}
    (hf : ∀ x, (f x).deep = [f x]) (hg : ∀ x, (f x).package? o = some (g x)) (xs : List α) :
    packagesOfAll o (xs.map f) = xs.map g := by
  induction xs with
  | nil => rfl
  | cons x rest ih =>
    rw [List.map_cons, packagesOfAll_cons, ih, packagesOfAll, deepAll, deepAll, List.append_nil, hf,
      List.filterMap_cons_some (hg x)]
    rfl

theorem packagesOfAll_enter (o : Options) (kind : ScopeKind) (body : List Request) :
    packagesOfAll o [enter kind body] = packagesOfAll o body := by
  rw [packagesOfAll, deepAll_enter]
  rfl

end Request

namespace Code

/-- What the text of code mentions besides the names of its scratch variables. -/
inductive Mention
  | slot (x : String)
  | string (s : StringRef)
  | package (p : Package)
  /-- A member of a Go package. -/
  | member (name : String)
  /-- The type of a scratch variable that begins to be in use. -/
  | scratch (type : String)
  /-- A line of the source in a comment. -/
  | line (s : String)
  /-- An expression by its text. -/
  | verbatim (s : String)

def Value.mentions : Value → List Mention
  | slot x => [.slot x]
  | str s => [.string s]
  | verbatim s => [.verbatim s]
  | temp _ | int _ | noneObject | item _ _ => []

def Call.mentions : Call → List Mention
  | setItem _ key v => .string key :: v.mentions
  | delVar _ key | resolveGlobal key => [.string key]
  | checkLocal x => [.slot x]
  | resolveClass closure key => closure.toList.map .slot ++ [.string key]
  | getAttr obj attr => obj.mentions ++ [.string attr]
  | setAttr obj attr v => obj.mentions ++ .string attr :: v.mentions
  | invoke fn args => fn.mentions ++ args.flatMap Value.mentions
  | binary _ left right | inplace _ left right => left.mentions ++ right.mentions
  | isTrue v | iter v | tie _ _ v => v.mentions
  | importModule _ packages => packages.map .package
  | wrapNative reflect package name => [.package reflect, .package package, .member name]
  | setModule _ module => [.string module]
  | evalCode _ => []
  | newClass name _ _ => [.string name]

def Construction.mentions : Construction → List Mention
  | tuple elts | list elts => elts.flatMap Value.mentions
  | array _ | dict | received => []

/-- The call that an action makes. -/
def Action.call? : Action → Option Call
  | perform c | store _ c | discard c => some c
  | sourceLine _ _ | acquire _ | release _ | construct _ _ | setSlot _ _ | clearSlot _ => none

def Action.mentions : Action → List Mention
  | perform c | store _ c | discard c => c.mentions
  | construct _ k => k.mentions
  | setSlot x v => .slot x :: v.mentions
  | clearSlot x => [.slot x]
  | acquire t => [.scratch t.type]
  | sourceLine _ line => [.line line]
  | release _ => []

/-- Whether a call looks a name up. -/
def Call.isLookup : Call → Bool
  | checkLocal _ | resolveGlobal _ | resolveClass _ _ => true
  | _ => false

namespace Step

/-- What the text of a single step mentions. Steps with control structure have no text of their
own. -/
def mentions : Step → List Mention
  | action a => a.mentions
  | suspend v => v.mentions
  | ret v => (v.map Value.mentions).getD []
  | _ => []

/-- The calls of a single step that look names up. -/
def lookups : Step → List Call
  | action a => a.call?.toList.filter Call.isLookup
  | _ => []

/-- Whether a step makes the code of a nested body. -/
def isDefinition : Step → Bool
  | function _ _ _ _ | classBody _ _ _ _ _ => true
  | _ => false

mutual

/-- The single steps of a step in the order of the text; if `deep`, then also those of nested
bodies. -/
def flat (deep : Bool) : Step → List Step
  | branch test _ body none | whileLoop test _ body none => flatAll deep test ++ flatAll deep body
  | branch test _ body (some orelse) | whileLoop test _ body (some orelse) =>
    flatAll deep test ++ flatAll deep body ++ flatAll deep orelse
  | forLoop _ _ bind body none => flatAll deep bind ++ flatAll deep body
  | forLoop _ _ bind body (some orelse) =>
    flatAll deep bind ++ flatAll deep body ++ flatAll deep orelse
  | function dst header temps body =>
    function dst header temps body :: if deep then flatAll deep body else []
  | classBody dst name names temps body =>
    classBody dst name names temps body :: if deep then flatAll deep body else []
  | s => [s]

/-- The single steps of code in the order of the text. -/
def flatAll (deep : Bool) : List Step → List Step
  | [] => []
  | s :: rest => s.flat deep ++ flatAll deep rest

end

@[simp] theorem flatAll_nil (deep : Bool) : flatAll deep [] = [] := rfl

@[simp] theorem flatAll_append (deep : Bool) (a b : List Step) :
    flatAll deep (a ++ b) = flatAll deep a ++ flatAll deep b := by
  induction a with
  | nil => rfl
  | cons s rest ih => rw [List.cons_append, flatAll, flatAll, ih, List.append_assoc]

theorem flatAll_single (deep : Bool) (s : Step) : flatAll deep [s] = s.flat deep := by
  rw [flatAll, flatAll, List.append_nil]

/-- The lookups of code in the order of the text, without those of nested bodies. -/
def lookupsOf (code : List Step) : List Call := (flatAll false code).flatMap lookups

/-- The steps that make the code of nested bodies. -/
def definitionsOf (code : List Step) : List Step := (flatAll false code).filter isDefinition

/-- What code mentions; if `deep`, then also what nested bodies mention. -/
def mentionsOf (deep : Bool) (code : List Step) : List Mention :=
  (flatAll deep code).flatMap mentions

@[simp] theorem lookupsOf_append (a b : List Step) :
    lookupsOf (a ++ b) = lookupsOf a ++ lookupsOf b := by
  rw [lookupsOf, flatAll_append, List.flatMap_append]
  rfl

@[simp] theorem definitionsOf_append (a b : List Step) :
    definitionsOf (a ++ b) = definitionsOf a ++ definitionsOf b := by
  rw [definitionsOf, flatAll_append, List.filter_append]
  rfl

@[simp] theorem mentionsOf_append (deep : Bool) (a b : List Step) :
    mentionsOf deep (a ++ b) = mentionsOf deep a ++ mentionsOf deep b := by
  rw [mentionsOf, flatAll_append, List.flatMap_append]
  rfl

end Step

end Code

end Goward
