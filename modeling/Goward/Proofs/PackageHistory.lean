import Goward.Proofs.Independence
import Goward.Proofs.Transcripts

/-!
# Histories of registries

What the registry of a unit holds after any history of requests. A path may be asked for below the
library root, as it is, or by the reserved name of the runtime; in each case it is answered with the
one package that is kept under it. The names that the code uses for packages are made from their
paths by a substitution that can be undone, so different packages have different names; and if the
runtime is registered first of all, its short name belongs to it alone.
-/

namespace Goward

/-- A request to the registry of a unit. -/
inductive RegistryOp
  /-- A package by its path below the library root. -/
  | addImport (path : String)
  /-- A package by its import path, or the runtime by its reserved name. -/
  | addNative (path : String)
  /-- The reference to a string. -/
  | intern (s : String)
  deriving DecidableEq

/-- What a request to the registry is answered with. -/
inductive Registered
  | package (p : Package)
  | string (ref : StringRef)
  deriving DecidableEq

/-- Requests to a registry, each with its answer. -/
abbrev RegistryHistory := List (RegistryOp × Registered)

/-- The path that a request for a package means. -/
def RegistryOp.path? (o : Options) : RegistryOp → Option String
  | addImport path => some (o.libroot ++ "/" ++ path)
  | addNative path => some (if path = Package.runtimeName then o.runtime else path)
  | intern _ => none

/-- The package that a request asks for. It is given another one if the path was registered before. -/
def RegistryOp.package? (o : Options) : RegistryOp → Option Package
  | addImport path => some (.ofPath (o.libroot ++ "/" ++ path))
  | addNative path => some
    (if path = Package.runtimeName then ⟨o.runtime, Package.runtimeAlias⟩ else .ofPath path)
  | intern _ => none

theorem RegistryOp.path?_eq (o : Options) (op : RegistryOp) :
    op.path? o = (op.package? o).map (·.name) := by
  cases op with
  | addImport _ | intern _ => rfl
  | addNative path =>
    rw [path?, package?, Option.map_some, apply_ite Package.name]
    rfl

/-- Answers a request. -/
def Registry.serve (r : Registry) : RegistryOp → Registered × Registry
  | .addImport path => (.package (r.addImport path).1, (r.addImport path).2)
  | .addNative path => (.package (r.addNative path).1, (r.addNative path).2)
  | .intern s => (.string (r.intern s).1, (r.intern s).2)

namespace Text

/-- The replacement of a character can be undone if the text does not have the one that is put in. -/
theorem substituteChar_undo {a b : Char} {s : String} (hs : b ∉ s.toList) :
    substituteChar b (.singleton a) (substituteChar a (.singleton b) s) = s := by
  have hback : ∀ c ∈ s.toList, (if c = a then [b] else [c]).flatMap
      (fun d => if d = b then [a] else [d]) = [c] := by
    intro c hc
    have hne : c ≠ b := fun heq => hs (heq ▸ hc)
    by_cases hca : c = a
    · simp [hca]
    · simp [hca, hne]
  simp only [substituteChar, String.toList_ofList, String.toList_singleton, List.flatMap_assoc]
  rw [List.flatMap_congr hback, List.flatMap_singleton', String.ofList_toList]

end Text

namespace Package

/-- Names made from paths are different if no path has the letter that stands for the slash. -/
theorem ofPath_goName_inj {path path' : String} (h : 'Γ' ∉ path.toList) (h' : 'Γ' ∉ path'.toList)
    (heq : (ofPath path).goName = (ofPath path').goName) : path = path' := by
  have hcode : Text.substituteChar '/' "Γ" path = Text.substituteChar '/' "Γ" path' := by
    rw [← String.toList_inj] at heq ⊢
    simpa [ofPath] using heq
  have hundo := congrArg (Text.substituteChar 'Γ' (.singleton '/')) hcode
  rwa [show "Γ" = String.singleton 'Γ' from rfl, Text.substituteChar_undo h,
    Text.substituteChar_undo h'] at hundo

/-- The name of the runtime is not made from a path. -/
theorem ofPath_goName_ne (path : String) : (ofPath path).goName ≠ runtimeAlias := by
  intro heq
  rw [← String.toList_inj] at heq
  simp [ofPath, runtimeAlias] at heq

end Package

namespace Registry

variable {o : Options} {r : Registry} {h : RegistryHistory} {op : RegistryOp} {path : String}

/-- A package has a name made from its path, or it is the runtime with the short name. -/
def Named (o : Options) (p : Package) : Prop :=
  p = .ofPath p.name ∨ p = ⟨o.runtime, Package.runtimeAlias⟩

/-- The packages of a registry are those that a history asks for and is answered with. -/
structure Records (o : Options) (r : Registry) (h : RegistryHistory) : Prop where
  runtime : r.runtime = o.runtime
  libroot : r.libroot = o.libroot
  ordered : r.Ordered
  named : ∀ p ∈ r.imports, Named o p
  answered : ∀ op g path, (op, g) ∈ h → op.path? o = some path →
    ∃ p ∈ r.imports, g = .package p ∧ p.name = path
  requested : ∀ p ∈ r.imports, ∃ op ∈ h.map Prod.fst, op.path? o = some p.name

/-- The reserved name is not that of a package below the library root. -/
theorem library_ne_runtimeName (o : Options) (path : String) :
    o.libroot ++ "/" ++ path ≠ Package.runtimeName := by
  intro heq
  have hslash : '/' ∈ Package.runtimeName.toList := by simp [← heq]
  exact absurd hslash (by decide)

/-- A request for a package registers the one that it asks for. -/
theorem serve_of_package? {p : Package} (hruntime : r.runtime = o.runtime)
    (hlibroot : r.libroot = o.libroot) (hp : op.package? o = some p) :
    r.serve op = (.package (r.register p).1, (r.register p).2) := by
  cases op with
  | addImport below =>
    obtain rfl := Option.some_inj.mp hp
    rw [serve, addImport, addNative, hlibroot, if_neg (library_ne_runtimeName o below)]
  | addNative given =>
    obtain rfl := Option.some_inj.mp hp
    rw [serve, addNative, hruntime]
    split <;> rfl
  | intern _ => cases hp

theorem named_of_package? {p : Package} (hp : op.package? o = some p) : Named o p := by
  cases op with
  | addImport below =>
    obtain rfl := Option.some_inj.mp hp
    exact .inl rfl
  | addNative given =>
    obtain rfl := Option.some_inj.mp hp
    split
    · exact .inr rfl
    · exact .inl rfl
  | intern _ => cases hp

/-- A request for a package registers one with the path that the request means. -/
theorem serve_package (hruntime : r.runtime = o.runtime) (hlibroot : r.libroot = o.libroot)
    (hpath : op.path? o = some path) : ∃ p, p.name = path ∧ Named o p ∧
      r.serve op = (.package (r.register p).1, (r.register p).2) := by
  rw [RegistryOp.path?_eq, Option.map_eq_some_iff] at hpath
  obtain ⟨p, hp, rfl⟩ := hpath
  exact ⟨p, rfl, named_of_package? hp, serve_of_package? hruntime hlibroot hp⟩

namespace Records

theorem new (o : Options) : (ofOptions o).Records o [] where
  runtime := rfl
  libroot := rfl
  ordered := ⟨.nil, .nil⟩
  named _ hp := nomatch hp
  answered _ _ _ hop := nomatch hop
  requested _ hp := nomatch hp

/-- One more request keeps the packages, and each new one is what it asks for. -/
theorem extend {r' : Registry} {g : Registered} (hr : r.Records o h)
    (hruntime : r'.runtime = r.runtime) (hlibroot : r'.libroot = r.libroot)
    (hordered : r'.Ordered) (hold : ∀ p ∈ r.imports, p ∈ r'.imports)
    (hnew : ∀ p ∈ r'.imports, p ∈ r.imports ∨ Named o p ∧ op.path? o = some p.name)
    (hanswer : ∀ path, op.path? o = some path → ∃ p ∈ r'.imports, g = .package p ∧ p.name = path) :
    r'.Records o (h ++ [(op, g)]) where
  runtime := hruntime.trans hr.runtime
  libroot := hlibroot.trans hr.libroot
  ordered := hordered
  named := by
    intro p hp
    rcases hnew p hp with hp | ⟨hnamed, -⟩
    · exact hr.named p hp
    · exact hnamed
  answered := by
    intro op' g' path hop hpath
    rcases List.mem_append.mp hop with hop | hop
    · obtain ⟨p, hp, hanswered⟩ := hr.answered op' g' path hop hpath
      exact ⟨p, hold p hp, hanswered⟩
    · obtain ⟨rfl, rfl⟩ := Prod.mk.inj (List.mem_singleton.mp hop)
      exact hanswer path hpath
  requested := by
    intro p hp
    rcases hnew p hp with hp | ⟨-, hpath⟩
    · obtain ⟨op', hop, hpath⟩ := hr.requested p hp
      exact ⟨op', by simp [hop], hpath⟩
    · exact ⟨op, by simp, hpath⟩

theorem intern (hr : r.Records o h) (s : String) :
    (r.serve (.intern s)).2.Records o (h ++ [(.intern s, (r.serve (.intern s)).1)]) := by
  obtain ⟨hruntime, hlibroot, himports⟩ := r.intern_keeps s
  refine hr.extend hruntime hlibroot (hr.ordered.intern s) (fun p hp => ?_) (fun p hp => ?_) nofun
  · exact himports.symm ▸ hp
  · exact .inl (himports ▸ hp)

theorem package (hr : r.Records o h) (hpath : op.path? o = some path) :
    (r.serve op).2.Records o (h ++ [(op, (r.serve op).1)]) := by
  obtain ⟨p, rfl, hp, heq⟩ := serve_package hr.runtime hr.libroot hpath
  obtain ⟨hruntime, hlibroot, -⟩ := r.register_keeps p
  have hname := name_register r p
  rw [heq]
  refine hr.extend hruntime hlibroot (hr.ordered.register p)
    (fun q hq => mem_imports_register.mpr (.inl hq)) (fun q hq => ?_) (fun path' hpath' => ?_)
  · obtain ⟨known, hknown, -, hanswer⟩ | ⟨-, hanswer⟩ := r.register_cases p
    · rw [mem_imports_register, hanswer] at hq
      rcases hq with hq | rfl
      · exact .inl hq
      · exact .inl hknown
    · rw [mem_imports_register, hanswer] at hq
      rcases hq with hq | rfl
      · exact .inl hq
      · exact .inr ⟨hp, hpath⟩
  · obtain rfl := Option.some_inj.mp (hpath.symm.trans hpath')
    exact ⟨_, mem_imports_register.mpr (.inr rfl), rfl, hname⟩

end Records

/-- After any requests the packages are those that the history asks for. -/
theorem records (o : Options) (ops : List RegistryOp) :
    (stateAfter serve (.ofOptions o) ops).Records o (transcript serve (.ofOptions o) ops) := by
  induction ops using List.reverseRecOn with
  | nil => exact .new o
  | append_singleton ops op ih =>
    rw [stateAfter_concat, transcript_concat]
    cases op with
    | addImport _ | addNative _ => exact ih.package rfl
    | intern s => exact ih.intern s

/-! ### Runs that begin with the runtime -/

theorem Canonical.serve (hr : r.Canonical o) (op : RegistryOp) : (r.serve op).2.Canonical o := by
  cases op with
  | addImport path => exact (hr.addNative _).2.1
  | addNative path => exact (hr.addNative path).2.1
  | intern s => exact hr.intern s

/-- The registry of a unit answers as the options say, whatever is asked for later. -/
theorem canonical_after (o : Options) (ops : List RegistryOp) :
    (stateAfter Registry.serve (.ofOptions o) (.addNative Package.runtimeName :: ops)).Canonical
      o := by
  induction ops using List.reverseRecOn with
  | nil => exact canonical_initialTree o
  | append_singleton ops op ih =>
    rw [← List.cons_append, stateAfter_concat]
    exact ih.serve op

end Registry

/-- The registry of a tree that arises while code is generated is that of a unit after some requests,
of which the first one is for the runtime. -/
theorem ScopeTree.Arises.registry_eq {o : Options} {t : ScopeTree} (h : t.Arises o) :
    ∃ ops, t.registry =
      stateAfter Registry.serve (.ofOptions o) (.addNative Package.runtimeName :: ops) := by
  have hstep (u : ScopeTree) (op : RegistryOp) (hu : ∃ ops, u.registry =
      stateAfter Registry.serve (.ofOptions o) (.addNative Package.runtimeName :: ops)) :
      ∃ ops, (u.registry.serve op).2 =
        stateAfter Registry.serve (.ofOptions o) (.addNative Package.runtimeName :: ops) := by
    obtain ⟨ops, hops⟩ := hu
    refine ⟨ops ++ [op], ?_⟩
    rw [hops, ← List.cons_append, stateAfter_concat]
  induction h with
  | initial => exact ⟨[], rfl⟩
  | push _ _ _ _ ih | alloc _ _ _ ih => exact ih
  | free _ hu ih =>
    obtain ⟨q, -, rfl⟩ := free_ok hu
    exact ih
  | addImport path _ ih => exact hstep _ (.addImport path) ih
  | addNative path _ ih => exact hstep _ (.addNative path) ih
  | intern s _ ih => exact hstep _ (.intern s) ih

/-- So is the registry of a module. -/
theorem lowerModule_registry {cx : Context} {body : List Stmt} {m : LoweredModule}
    (h : lowerModule cx body = .ok m) : ∃ ops, m.registry =
      stateAfter Registry.serve (.ofOptions cx.options) (.addNative Package.runtimeName :: ops) := by
  unfold lowerModule at h
  cases hr : (Build.bodyWithEnd false (lowerBody cx ScopeTree.moduleId false body)).run
      (initialTree cx.options) with
  | error e => simp [hr, Bind.bind, Except.bind] at h
  | ok r =>
    obtain rfl : _ = m := by simpa [hr, Bind.bind, Except.bind, Pure.pure, Except.pure] using h
    have hbody := Build.bodyWithEnd_agree false
      (lowerBody_agree (sameContext_refl cx cx.options) ScopeTree.moduleId ScopeTree.moduleId false
        body)
    exact (Meets.arises_of_agree hbody .initial (initialTree_isSome _) hr).1.registry_eq

namespace Registry

variable {o : Options} {r : Registry} {h : RegistryHistory}

/-- The packages of a registry are as a history says. -/
structure FollowsHistory (o : Options) (r : Registry) (h : RegistryHistory) : Prop where
  /-- A request for a package is always answered with a package that has the path it means. -/
  answered : ∀ op g path, (op, g) ∈ h → op.path? o = some path →
    ∃ p ∈ r.imports, g = .package p ∧ p.name = path
  /-- Two requests that mean the same path are answered with the same package. -/
  stable : ∀ op g op' g' path, (op, g) ∈ h → (op', g') ∈ h → op.path? o = some path →
    op'.path? o = some path → g = g'
  /-- The paths of the packages are those that requests mean. -/
  paths : ∀ path, path ∈ r.imports.map (·.name) ↔ ∃ op ∈ h.map Prod.fst, op.path? o = some path
  /-- The paths are in strictly ascending order of their bytes, so no two packages have the same. -/
  ascending : (r.imports.map fun p => Text.bytes p.name.toList).Pairwise (· < ·)
  /-- What is kept under a path is the package that has it. -/
  keyed : ∀ path p, r.find? path = some p ↔ p ∈ r.imports ∧ p.name = path
  /-- Different packages have different names in the code. The letter that stands for the slash may
  not be in their paths, for then it could stand for itself. -/
  distinct : ∀ p ∈ r.imports, ∀ q ∈ r.imports, 'Γ' ∉ p.name.toList → 'Γ' ∉ q.name.toList →
    p ≠ q → p.goName ≠ q.goName

/-- The short name of the runtime belongs to the path of the runtime. -/
structure OwnsRuntime (o : Options) (r : Registry) (h : RegistryHistory) : Prop where
  registered : ⟨o.runtime, Package.runtimeAlias⟩ ∈ r.imports
  /-- No package with another path has the name, and none with that path has another name. -/
  owner : ∀ p ∈ r.imports, p.goName = Package.runtimeAlias ↔ p.name = o.runtime
  /-- However the path of the runtime is asked for, the answer has the name. -/
  answered : ∀ op g, (op, g) ∈ h → op.path? o = some o.runtime →
    g = .package ⟨o.runtime, Package.runtimeAlias⟩

theorem Records.follows (hr : r.Records o h) : r.FollowsHistory o h where
  answered := hr.answered
  stable := by
    intro op g op' g' path hop hop' hpath hpath'
    obtain ⟨p, hp, rfl, hname⟩ := hr.answered op g path hop hpath
    obtain ⟨q, hq, rfl, hname'⟩ := hr.answered op' g' path hop' hpath'
    have hfind := hr.ordered.find?_eq_some_iff.mpr ⟨hp, hname⟩
    have hfind' := hr.ordered.find?_eq_some_iff.mpr ⟨hq, hname'⟩
    rw [Option.some_inj.mp (hfind.symm.trans hfind')]
  paths := by
    intro path
    constructor
    · intro hmem
      obtain ⟨p, hp, rfl⟩ := List.mem_map.mp hmem
      exact hr.requested p hp
    · rintro ⟨op, hop, hpath⟩
      obtain ⟨⟨op, g⟩, htaken, rfl⟩ := List.mem_map.mp hop
      obtain ⟨p, hp, -, rfl⟩ := hr.answered op g path htaken hpath
      exact List.mem_map_of_mem hp
  ascending := hr.ordered.imports.bytes
  keyed _ _ := hr.ordered.find?_eq_some_iff
  distinct := by
    intro p hp q hq hletter hletter' hne heq
    rcases hr.named p hp with hp | rfl <;> rcases hr.named q hq with hq | rfl
    · rw [hp, hq] at heq
      rw [hp, hq, Package.ofPath_goName_inj hletter hletter' heq] at hne
      exact hne rfl
    · rw [hp] at heq
      exact Package.ofPath_goName_ne _ heq
    · rw [hq] at heq
      exact Package.ofPath_goName_ne _ heq.symm
    · exact hne rfl

theorem Records.ownsRuntime (hr : r.Records o h) (hc : r.Canonical o) : r.OwnsRuntime o h := by
  have hruntime : packageAt o o.runtime = ⟨o.runtime, Package.runtimeAlias⟩ := if_pos rfl
  refine ⟨hruntime ▸ hc.registered, fun p hp => ⟨fun halias => ?_, fun hname => ?_⟩,
    fun op g hop hpath => ?_⟩
  · by_contra hne
    rw [hc.packages p hp, packageAt, if_neg hne] at halias
    exact Package.ofPath_goName_ne _ halias
  · rw [hc.packages p hp, hname, hruntime]
  · obtain ⟨p, hp, rfl, hname⟩ := hr.answered op g o.runtime hop hpath
    rw [hc.packages p hp, hname, hruntime]

end Registry

/-- The registration of packages is stable and free of collisions. Whatever a new registry is asked
for, a path stands for one package from the first request that means it, and packages have different
names in the code. In the registry of a module, where the runtime is registered first of all, its
short name belongs to it alone, however it is asked for later. -/
theorem packages_follow_history (o : Options) :
    (∀ ops, (stateAfter Registry.serve (.ofOptions o) ops).FollowsHistory o
      (transcript Registry.serve (.ofOptions o) ops)) ∧
    (∀ ops, (stateAfter Registry.serve (.ofOptions o)
        (.addNative Package.runtimeName :: ops)).OwnsRuntime o
      (transcript Registry.serve (.ofOptions o) (.addNative Package.runtimeName :: ops))) ∧
    ∀ source body m, lowerModule ⟨o, source⟩ body = .ok m → ∃ ops, m.registry =
      stateAfter Registry.serve (.ofOptions o) (.addNative Package.runtimeName :: ops) := by
  refine ⟨fun ops => ?_, fun ops => ?_, fun source body m hm => ?_⟩
  · exact (Registry.records o ops).follows
  · exact (Registry.records o _).ownsRuntime (Registry.canonical_after o ops)
  · exact lowerModule_registry hm

theorem packages_follow_history_imported :
    ∃ m, lowerModule ⟨{}, none⟩ [.importingClass] = .ok m ∧ ∃ ops, m.registry =
      stateAfter Registry.serve (.ofOptions {}) (.addNative Package.runtimeName :: ops) := by
  obtain ⟨m, hm⟩ : ∃ m, lowerModule ⟨{}, none⟩ [.importingClass] = .ok m :=
    Build.ok_of_toBool (by decide +kernel)
  exact ⟨m, hm, (packages_follow_history {}).2.2 none _ m hm⟩

/-- Two paths, one of which has the letter that stands for the slash in the other one. -/
example : (Package.ofPath "a/b").goName = (Package.ofPath "aΓb").goName := by decide

end Goward
