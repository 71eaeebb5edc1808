import Goward.Proofs.NamePlaces
import Goward.Proofs.RegistrationOrder
import Goward.Proofs.Requests

/-!
# Code of imports

Importing a module registers the package of every path that leads to it, passes them on in this order
and picks one of the objects that come back. Main result: the packages are the right ones, whatever
was registered before, the object belongs to the name that is bound, and the name is the one that
classification takes from the clause.
-/

namespace Goward

open Goward.Build Goward.Code
open ScopeTree (growsTo_treeRelation)

namespace ModulePath

/-- The paths of the packages that lead to a module below a library root: the outermost one first, and
that of the module itself last. -/
def packagePaths (libroot : String) (p : ModulePath) : List String :=
  (List.range p.parts.length).map fun i => libroot ++ "/" ++ "/".intercalate (p.parts.take (i + 1))

theorem prefixesAfter_eq (before parts : List String) :
    prefixesAfter before parts =
      (List.range parts.length).map fun i => "/".intercalate (before ++ parts.take (i + 1)) := by
  induction parts generalizing before with
  | nil => rfl
  | cons part rest ih =>
    rw [prefixesAfter, ih, List.length_cons, List.range_succ_eq_map]
    simp

theorem packagePaths_eq (libroot : String) (p : ModulePath) :
    p.packagePaths libroot = (prefixesAfter [] p.parts).map (libroot ++ "/" ++ ·) := by
  rw [packagePaths, prefixesAfter_eq, List.map_map]
  rfl

@[simp] theorem length_packagePaths (libroot : String) (p : ModulePath) :
    (p.packagePaths libroot).length = p.parts.length := by
  rw [packagePaths, List.length_map, List.length_range]

/-- One more component makes a path longer. -/
theorem length_intercalate_concat {parts : List String} (h : parts ≠ []) (part : String) :
    ("/".intercalate parts).length < ("/".intercalate (parts ++ [part])).length := by
  have hslash : "/".length = 1 := rfl
  induction parts with
  | nil => exact absurd rfl h
  | cons first rest ih =>
    cases rest with
    | nil =>
      simp only [List.cons_append, List.nil_append, String.intercalate_cons_cons,
        String.intercalate_singleton, String.length_append]
      omega
    | cons second rest =>
      have hrest := ih (List.cons_ne_nil _ _)
      simp only [List.cons_append, String.intercalate_cons_cons, String.length_append] at hrest ⊢
      omega

theorem length_lt_of_mem_prefixesAfter {before parts : List String} {x : String}
    (hbefore : before ≠ []) (hx : x ∈ prefixesAfter before parts) :
    ("/".intercalate before).length < x.length := by
  induction parts generalizing before with
  | nil => cases hx
  | cons part rest ih =>
    have hpart := length_intercalate_concat hbefore part
    rcases List.mem_cons.mp hx with rfl | hx
    · exact hpart
    · exact hpart.trans (ih (List.append_ne_nil_of_right_ne_nil _ (List.cons_ne_nil _ _)) hx)

theorem nodup_prefixesAfter (before parts : List String) : (prefixesAfter before parts).Nodup := by
  induction parts generalizing before with
  | nil => exact List.nodup_nil
  | cons part rest ih =>
    refine List.nodup_cons.mpr ⟨fun hx => ?_, ih _⟩
    have hlt := length_lt_of_mem_prefixesAfter
      (List.append_ne_nil_of_right_ne_nil _ (List.cons_ne_nil _ _)) hx
    omega

/-- No two packages on the way to a module have the same path. -/
theorem nodup_packagePaths (libroot : String) (p : ModulePath) :
    (p.packagePaths libroot).Nodup := by
  rw [packagePaths_eq]
  refine (nodup_prefixesAfter [] p.parts).map fun x y h => ?_
  simpa [← String.toList_inj] using h

/-- The text of a path that is split at its dots is put together again. -/
theorem join_ofText (s : String) : (ofText s).join "." = s := by
  have hdot : ".".toList = ['.'] := rfl
  rw [← String.toList_inj, join, ofText, String.toList_intercalate, List.map_map, hdot]
  simp [Function.comp_def, List.intercalate_splitOn]

theorem ofText_ne_nil (s : String) : (ofText s).parts ≠ [] := by
  rw [ofText, ne_eq, List.map_eq_nil_iff]
  exact List.splitOn_ne_nil '.' s.toList

end ModulePath

/-- The packages that a registry answers some paths with, one after another, and the registry after
that. -/
structure Registry.Provides (r : Registry) (paths : List String) (packages : List Package)
    (r' : Registry) : Prop where
  libroot : r'.libroot = r.libroot
  /-- Each package has the path that it is asked for by. -/
  names : packages.map (·.name) = paths
  /-- It is the one that was registered under the path, or else one with a name made from it. -/
  made : ∀ p ∈ packages, p = (r.find? p.name).getD (.ofPath p.name)
  kept : ∀ p ∈ packages, r'.find? p.name = some p
  known : ∀ path p, r.find? path = some p → r'.find? path = some p
  /-- The registry grows by these packages and by no other one. -/
  imports : ∀ q, q ∈ r'.imports ↔ q ∈ r.imports ∨ q ∈ packages

namespace Registry

variable {r r' r'' : Registry} {p : Package} {path : String}

theorem addImport_eq (r : Registry) (path : String) :
    r.addImport path = r.register (.ofPath (r.libroot ++ "/" ++ path)) := by
  rw [addImport, addNative, if_neg (library_ne_runtimeName { libroot := r.libroot } path)]

theorem find?_register_of_some (h : r.find? path = some p) (q : Package) :
    (r.register q).2.find? path = some p := by
  rw [find?_register, h, Option.some_or]

/-- A package that is registered is found under its path. -/
theorem find?_register_self (r : Registry) (path : String) :
    (r.register (.ofPath path)).2.find? path = some (r.register (.ofPath path)).1 ∧
      (r.register (.ofPath path)).1 = (r.find? path).getD (.ofPath path) := by
  have hname : (Package.ofPath path).name = path := rfl
  rw [find?_register, register, hname]
  cases hfind : r.find? path with
  | some known => exact ⟨rfl, rfl⟩
  | none => simp [hname]

namespace Provides

theorem nil (r : Registry) : r.Provides [] [] r where
  libroot := rfl
  names := rfl
  made := nofun
  kept := nofun
  known _ _ h := h
  imports q := by simp

theorem cons {paths : List String} {packages : List Package}
    (h : (r.register (.ofPath path)).2.Provides paths packages r') :
    r.Provides (path :: paths) ((r.register (.ofPath path)).1 :: packages) r' := by
  have hname : (r.register (.ofPath path)).1.name = path := r.name_register (.ofPath path)
  obtain ⟨hfind, hmade⟩ := r.find?_register_self path
  constructor
  · exact h.libroot.trans (r.register_keeps _).2.1
  · rw [List.map_cons, hname, h.names]
  · intro p hp
    rcases List.mem_cons.mp hp with rfl | hp
    · rw [hname]
      exact hmade
    · have hlater := h.made p hp
      rw [find?_register] at hlater
      cases hr : r.find? p.name with
      | some known =>
        rw [hr] at hlater
        exact hlater
      | none =>
        rw [hr, Option.none_or, List.find?_singleton] at hlater
        split at hlater
        · next hsame =>
          obtain rfl : path = p.name := beq_iff_eq.mp hsame
          exact hlater
        · exact hlater
  · intro p hp
    rcases List.mem_cons.mp hp with rfl | hp
    · rw [hname]
      exact h.known path _ hfind
    · exact h.kept p hp
  · intro path' p hp
    exact h.known path' p (find?_register_of_some hp _)
  · intro q
    rw [h.imports, mem_imports_register, List.mem_cons, or_assoc]

/-- Only the packages of the last registry count. -/
theorem congr {paths : List String} {packages : List Package} (h : r.Provides paths packages r')
    (hlibroot : r''.libroot = r'.libroot) (himports : r''.imports = r'.imports) :
    r.Provides paths packages r'' := by
  have hfind (path : String) : r''.find? path = r'.find? path := by rw [find?, find?, himports]
  constructor
  · exact hlibroot.trans h.libroot
  · exact h.names
  · exact h.made
  · intro p hp
    rw [hfind]
    exact h.kept p hp
  · intro path p hp
    rw [hfind]
    exact h.known path p hp
  · intro q
    rw [himports]
    exact h.imports q

end Provides

end Registry

/-- The code that loads a module with the packages that lead to it. -/
def loading (path : ModulePath) (modules : Temp) (packages : List Package) : List Step :=
  [.action (.acquire modules), .action (.store modules (.importModule (path.join ".") packages))]

theorem addPackages_run (parts : List String) : ∀ before (t : ScopeTree), ∃ packages r',
    (addPackages before parts).run t = .ok ⟨packages, [], { t with registry := r' }⟩ ∧
      t.registry.Provides ((ModulePath.prefixesAfter before parts).map
        (t.registry.libroot ++ "/" ++ ·)) packages r' := by
  induction parts with
  | nil => exact fun _ t => ⟨[], t.registry, rfl, .nil _⟩
  | cons part rest ih =>
    intro before t
    have hadd := t.registry.addImport_eq ("/".intercalate (before ++ [part]))
    obtain ⟨packages, r', hrun, hprovides⟩ :=
      ih (before ++ [part]) (t.addImport ("/".intercalate (before ++ [part]))).2
    refine ⟨(t.addImport ("/".intercalate (before ++ [part]))).1 :: packages, r', ?_, ?_⟩
    · simp only [run, addPackages, Bind.bind, Build.bind, onTree] at hrun ⊢
      rw [hrun]
      rfl
    · have hroot := (t.registry.register_keeps
        (.ofPath (t.registry.libroot ++ "/" ++ "/".intercalate (before ++ [part])))).2.1
      simp only [ScopeTree.addImport, ScopeTree.onRegistry, hadd, hroot] at hprovides ⊢
      exact hprovides.cons

/-- A module that can be loaded has a path, and its packages are registered before the call. -/
theorem loadModule_run {id : Nat} {path : ModulePath} {t : ScopeTree} {r : Built Temp}
    (h : (loadModule id path).run t = .ok r) : path.parts ≠ [] ∧ ∃ packages,
      r.code = loading path r.value packages ∧ t.GrowsTo r.tree ∧
      t.registry.Provides (path.packagePaths t.registry.libroot) packages r.tree.registry := by
  obtain ⟨first, hrequire, second, hload, rfl⟩ := run_bind_ok.mp h
  obtain ⟨hparts, rfl⟩ := run_require_ok.mp hrequire
  obtain ⟨packages, r', hadd, hprovides⟩ := addPackages_run path.parts [] t
  obtain ⟨registered, hregistered, called, hcall, rfl⟩ := run_bind_ok.mp hload
  obtain rfl := Except.ok.inj (hadd.symm.trans hregistered)
  rw [run_callInto] at hcall
  cases hcall
  refine ⟨by simpa using hparts, packages, rfl, ?_, ?_⟩
  · exact growsTo_treeRelation.alloc { t with registry := r' } id arrayType
  · rw [ModulePath.packagePaths_eq]
    exact hprovides

/-- A change that lets a tree grow and registers no package. -/
structure KeepsPackages (t u : ScopeTree) : Prop where
  grows : t.GrowsTo u
  libroot : u.registry.libroot = t.registry.libroot
  imports : u.registry.imports = t.registry.imports

namespace KeepsPackages

variable {t u v : ScopeTree}

theorem trans (h : KeepsPackages t u) (h' : KeepsPackages u v) : KeepsPackages t v :=
  ⟨h.grows.trans h'.grows, h'.libroot.trans h.libroot, h'.imports.trans h.imports⟩

theorem intern (t : ScopeTree) (x : String) : KeepsPackages t (t.intern x).2 := by
  obtain ⟨-, hlibroot, himports⟩ := t.registry.intern_keeps x
  exact ⟨growsTo_treeRelation.intern t x, hlibroot, himports⟩

theorem alloc (t : ScopeTree) (id : Nat) (type : String) : KeepsPackages t (t.alloc id type).2 :=
  ⟨growsTo_treeRelation.alloc t id type, rfl, rfl⟩

theorem free {id : Nat} {w : Temp} (h : t.free id w = .ok u) : KeepsPackages t u := by
  obtain ⟨q, -, rfl⟩ := ScopeTree.free_ok h
  exact ⟨growsTo_treeRelation.free h, rfl, rfl⟩

end KeepsPackages

/-- A store that succeeds puts down the code of the place where the scope stores the name. -/
theorem storeName_ok {id : Nat} {x : String} {v : Value} {t : ScopeTree} {r : Built Unit}
    (h : (storeName id x v).run t = .ok r) : ∃ place : NamePlace,
      t.home? id x = some place.home ∧ r.code = (place.storing x v).map .action ∧
      KeepsPackages t r.tree := by
  cases hhome : t.home? id x with
  | none =>
    simp only [storeName, run, Bind.bind, Build.bind, tree, hhome] at h
    cases h
  | some home =>
    obtain ⟨place, rfl⟩ : ∃ place : NamePlace, place.home = home := by
      cases home with
      | globals => exact ⟨.globals, rfl⟩
      | classBody => exact ⟨.classBody false, rfl⟩
      | slot => exact ⟨.slot, rfl⟩
    rw [storeName_run hhome] at h
    cases h
    refine ⟨place, rfl, rfl, ?_⟩
    cases place with
    | globals | classBody _ => exact .intern t x
    | slot => exact ⟨.refl t, rfl, rfl⟩

/-- A value is stored in a name, and then a scratch variable is given back. -/
theorem storeName_release_ok {id : Nat} {x : String} {v : Value} {w : Temp} {t u : ScopeTree}
    {r : Built Unit} (hid : (t.scope? id).isSome) (hg : t.GrowsTo u)
    (h : (do
      storeName id x v
      release id w).run u = .ok r) :
    ∃ place : NamePlace, t.home? id x = some place.home ∧ KeepsPackages u r.tree ∧
      r.code = (place.storing x v).map .action ++ [.action (.release w)] := by
  obtain ⟨stored, hstore, released, hrelease, rfl⟩ := run_bind_ok.mp h
  obtain ⟨place, hplace, hcode, hkeeps⟩ := storeName_ok hstore
  obtain ⟨u', hfree, rfl⟩ := run_release_ok.mp hrelease
  rw [hg.home?_eq hid] at hplace
  refine ⟨place, hplace, hkeeps.trans (.free hfree), ?_⟩
  rw [hcode]

/-! ### Imports of modules -/

/-- A clause of an import binds a name, in the place where the scope stores it, to one of the module
objects: to that of the outermost package, or to that of the module itself if there is a name after
`as`. -/
structure PicksModule (t : ScopeTree) (id : Nat) (a : Alias) (x : String) (place : NamePlace)
    (index count : Nat) : Prop where
  /-- The name is the one that classification takes from the clause. -/
  classified : ∀ span, StmtKind.events span (.imports [a]) = [.bind x]
  place : t.home? id x = some place.home
  plain : a.asName = none → a.path.parts.head? = some x ∧ index = 0
  named : ∀ y, a.asName = some y → x = y ∧ index = a.path.parts.length - 1
  inRange : index < count

/-- The code that imports modules for some clauses, one after another, and the registries before and
after it. -/
inductive ImportsModules (t : ScopeTree) (id : Nat) :
    Registry → List Alias → List Step → Registry → Prop
  | nil (r : Registry) : ImportsModules t id r [] [] r
  | cons {r r' r'' : Registry} {a : Alias} {rest : List Alias} {modules : Temp}
    {packages : List Package} {x : String} {place : NamePlace} {index : Nat} {code : List Step} :
    a.path.parts ≠ [] → r.Provides (a.path.packagePaths r.libroot) packages r' →
    PicksModule t id a x place index packages.length → ImportsModules t id r' rest code r'' →
    ImportsModules t id r (a :: rest)
      (loading a.path modules packages ++ (place.storing x (.item modules index)).map .action ++
        [.action (.release modules)] ++ code) r''

/-- The packages of a path are as many as it has components. -/
theorem Registry.Provides.length {r r' : Registry} {p : ModulePath} {packages : List Package}
    (h : r.Provides (p.packagePaths r.libroot) packages r') : packages.length = p.parts.length := by
  have hlength := congrArg List.length h.names
  rwa [List.length_map, ModulePath.length_packagePaths] at hlength

/-- A clause without a name after `as` stands for the outermost package. -/
theorem PicksModule.of_plain {t : ScopeTree} {id count : Nat} {a : Alias} {x : String}
    {place : NamePlace} (hplace : t.home? id x = some place.home) (hname : a.asName = none)
    (hx : a.path.first? = some x) (hcount : 0 < count) : PicksModule t id a x place 0 count where
  classified span := by simp [StmtKind.events, Event.binds, Alias.importedName?, hname, hx]
  place := hplace
  plain _ := ⟨hx, rfl⟩
  named y hy := nomatch hname.symm.trans hy
  inRange := hcount

/-- A clause with a name after `as` stands for the module itself. -/
theorem PicksModule.of_named {t : ScopeTree} {id count : Nat} {a : Alias} {x : String}
    {place : NamePlace} (hplace : t.home? id x = some place.home) (hname : a.asName = some x)
    (hcount : a.path.parts.length - 1 < count) :
    PicksModule t id a x place (a.path.parts.length - 1) count where
  classified span := by simp [StmtKind.events, Event.binds, Alias.importedName?, hname]
  place := hplace
  plain hnone := nomatch hname.symm.trans hnone
  named y hy := ⟨Option.some_inj.mp (hname.symm.trans hy), rfl⟩
  inRange := hcount

theorem importModule_run {id : Nat} {a : Alias} {t u : ScopeTree} {r : Built Unit}
    (hid : (t.scope? id).isSome) (hg : t.GrowsTo u) (h : (importModule id a).run u = .ok r) :
    ∃ modules packages x place index, a.path.parts ≠ [] ∧
      u.registry.Provides (a.path.packagePaths u.registry.libroot) packages r.tree.registry ∧
      PicksModule t id a x place index packages.length ∧ u.GrowsTo r.tree ∧
      r.code = loading a.path modules packages ++
        (place.storing x (.item modules index)).map .action ++ [.action (.release modules)] := by
  obtain ⟨loaded, hload, second, h₂, rfl⟩ := run_bind_ok.mp h
  obtain ⟨hparts, packages, hcode, hgrows, hprovides⟩ := loadModule_run hload
  have hlength := hprovides.length
  have hpos : 0 < a.path.parts.length := List.length_pos_iff.mpr hparts
  cases hname : a.asName with
  | some x =>
    simp only [hname] at h₂
    obtain ⟨place, hplace, hkeeps, hstored⟩ := storeName_release_ok hid (hg.trans hgrows) h₂
    refine ⟨loaded.value, packages, x, place, a.path.parts.length - 1, hparts,
      hprovides.congr hkeeps.libroot hkeeps.imports, .of_named hplace hname (by omega),
      hgrows.trans hkeeps.grows, ?_⟩
    rw [hcode, hstored, List.append_assoc]
  | none =>
    obtain ⟨x, rest, hparts'⟩ := List.exists_cons_of_ne_nil hparts
    have hfirst : a.path.first? = some x := by rw [ModulePath.first?, hparts']; rfl
    simp only [hname, hfirst] at h₂
    obtain ⟨place, hplace, hkeeps, hstored⟩ := storeName_release_ok hid (hg.trans hgrows) h₂
    refine ⟨loaded.value, packages, x, place, 0, hparts,
      hprovides.congr hkeeps.libroot hkeeps.imports, .of_plain hplace hname hfirst (by omega),
      hgrows.trans hkeeps.grows, ?_⟩
    rw [hcode, hstored, List.append_assoc]

theorem importModules_run {id : Nat} {t : ScopeTree} (hid : (t.scope? id).isSome)
    (names : List Alias) : ∀ {u : ScopeTree} {r : Built Unit}, t.GrowsTo u →
      (importModules id names).run u = .ok r →
      ImportsModules t id u.registry names r.code r.tree.registry := by
  induction names with
  | nil =>
    intro u r _ h
    cases h
    exact .nil _
  | cons a rest ih =>
    intro u r hg h
    obtain ⟨first, h₁, second, h₂, rfl⟩ := run_bind_ok.mp h
    obtain ⟨modules, packages, x, place, index, hparts, hprovides, hpicks, hgrows, hcode⟩ :=
      importModule_run hid hg h₁
    rw [hcode]
    exact .cons hparts hprovides hpicks (ih (hg.trans hgrows) h₂)

/-- The code that fetches members of a module for some clauses, in order, and stores each in a name.
A clause without a path is passed over. -/
inductive ImportsMembers (t : ScopeTree) (id : Nat) (module : Value) :
    List Alias → List Step → Prop
  | nil : ImportsMembers t id module [] []
  | skip {a : Alias} {rest : List Alias} {code : List Step} : a.path.parts = [] →
    ImportsMembers t id module rest code → ImportsMembers t id module (a :: rest) code
  | cons {a : Alias} {rest : List Alias} {name x : String} {member : Temp} {place : NamePlace}
    {code : List Step} : a.path.parts.getLast? = some name → x = a.asName.getD name →
    (∀ path level span, StmtKind.events span (.importsFrom path [a] level) = [.bind x]) →
    t.home? id x = some place.home → ImportsMembers t id module rest code →
    ImportsMembers t id module (a :: rest)
      ([.action (.acquire member), .action (.store member (.getAttr module (.of name)))] ++
        (place.storing x (.temp member)).map .action ++ [.action (.release member)] ++ code)

theorem importMember_run {id : Nat} {x : String} {c : Call} {t u : ScopeTree} {r : Built Unit}
    (hid : (t.scope? id).isSome) (hg : t.GrowsTo u) (h : (importMember id x c).run u = .ok r) :
    ∃ member, ∃ place : NamePlace, t.home? id x = some place.home ∧ KeepsPackages u r.tree ∧
      r.code = [.action (.acquire member), .action (.store member c)] ++
        (place.storing x (.temp member)).map .action ++ [.action (.release member)] := by
  obtain ⟨called, hcall, second, h₂, rfl⟩ := run_bind_ok.mp h
  rw [run_callInto] at hcall
  cases hcall
  have hkeeps := KeepsPackages.alloc u id Temp.objectType
  obtain ⟨place, hplace, hkeeps', hstored⟩ := storeName_release_ok hid (hg.trans hkeeps.grows) h₂
  refine ⟨(u.alloc id Temp.objectType).1, place, hplace, hkeeps.trans hkeeps', ?_⟩
  rw [hstored]
  exact (List.append_assoc _ _ _).symm

theorem importMembers_run {id : Nat} {module : Value} {t : ScopeTree} (hid : (t.scope? id).isSome)
    (names : List Alias) : ∀ {u : ScopeTree} {r : Built Unit}, t.GrowsTo u →
      (importMembers id module names).run u = .ok r →
      ImportsMembers t id module names r.code ∧ KeepsPackages u r.tree := by
  induction names with
  | nil =>
    intro u r _ h
    cases h
    exact ⟨.nil, .refl u, rfl, rfl⟩
  | cons a rest ih =>
    intro u r hg h
    unfold importMembers at h
    cases hlast : a.path.last? with
    | none =>
      simp only [hlast] at h
      obtain ⟨hcode, hkeeps⟩ := ih hg h
      exact ⟨.skip (List.getLast?_eq_none_iff.mp hlast) hcode, hkeeps⟩
    | some name =>
      simp only [hlast] at h
      obtain ⟨attr, hattr, second, h₂, rfl⟩ := run_bind_ok.mp h
      cases hattr
      obtain ⟨first, hfirst, third, h₃, rfl⟩ := run_bind_ok.mp h₂
      have hkeeps := KeepsPackages.intern u name
      obtain ⟨member, place, hplace, hkeeps', hcode⟩ :=
        importMember_run hid (hg.trans hkeeps.grows) hfirst
      obtain ⟨hrest, hkeeps''⟩ := ih (hg.trans (hkeeps.trans hkeeps').grows) h₃
      have hattr : (u.intern name).1 = .of name := Registry.intern_eq u.registry name
      refine ⟨?_, (hkeeps.trans hkeeps').trans hkeeps''⟩
      rw [List.nil_append, hcode, hattr]
      refine .cons hlast rfl (fun path level span => ?_) hplace hrest
      cases hname : a.asName <;>
        simp [StmtKind.events, Event.binds, Alias.memberName?, hname, hlast]

/-- The code of an import from a module: the module is loaded, members are fetched from the object of
the module itself, and the array of objects is given back. -/
def ImportsFrom (t : ScopeTree) (id : Nat) (r : Registry) (path : ModulePath) (names : List Alias)
    (code : List Step) (r' : Registry) : Prop :=
  ∃ modules packages members, path.parts ≠ [] ∧
    r.Provides (path.packagePaths r.libroot) packages r' ∧ path.parts.length - 1 < packages.length ∧
    ImportsMembers t id (.item modules (path.parts.length - 1)) names members ∧
    code = loading path modules packages ++ members ++ [.action (.release modules)]

theorem importFrom_run {id : Nat} {path : ModulePath} {names : List Alias} {t : ScopeTree}
    {r : Built Unit} (hid : (t.scope? id).isSome) (hnative : path.first? ≠ some nativeRoot)
    (h : (importFrom id path names 0).run t = .ok r) :
    ImportsFrom t id t.registry path names r.code r.tree.registry := by
  obtain ⟨required, hrequire, second, h₂, rfl⟩ := run_bind_ok.mp h
  obtain ⟨-, rfl⟩ := run_require_ok.mp hrequire
  rw [if_neg hnative] at h₂
  obtain ⟨loaded, hload, third, h₃, rfl⟩ := run_bind_ok.mp h₂
  obtain ⟨hparts, packages, hcode, hgrows, hprovides⟩ := loadModule_run hload
  obtain ⟨fetched, hmembers, released, hrelease, rfl⟩ := run_bind_ok.mp h₃
  obtain ⟨hfetched, hkeeps⟩ := importMembers_run hid names hgrows hmembers
  obtain ⟨u, hfree, rfl⟩ := run_release_ok.mp hrelease
  have hkeeps' := hkeeps.trans (.free hfree)
  have hlength := hprovides.length
  have hpos : 0 < path.parts.length := List.length_pos_iff.mpr hparts
  refine ⟨loaded.value, packages, fetched.code, hparts,
    hprovides.congr hkeeps'.libroot hkeeps'.imports, by omega, hfetched, ?_⟩
  rw [List.nil_append, hcode, List.append_assoc]

/-- The Go expression that loads a module. -/
theorem importModule_text (path : ModulePath) (packages : List Package) :
    (Call.importModule (path.join ".") packages).text =
      "πg.ImportModule(πF, " ++ Text.quote (".".intercalate path.parts) ++ ", []*πg.Code\x7b" ++
        ", ".intercalate (packages.map (·.goName ++ ".Code")) ++ "\x7d)" := by
  rw [← String.toList_inj]
  simp [Call.text, Call.runtime, String.join, commaList, ModulePath.join]

/-- Imports are lowered consistently. Whenever an `import` statement, or an import from a module that
is not a Go package, compiles in any scope, its code loads the modules with the packages that lead to
them, in order and all registered, under the dotted name; a path that is split from a text has that
text as its name. The names are bound where the scope stores them and are those of classification:
each to the object of the outermost package, of the module itself, or of a member that is read from
the module, and every index is below the number of packages. -/
theorem imports_consistent {cx : Context} {id : Nat} {inLoop : Bool} {t : ScopeTree}
    (hid : (t.scope? id).isSome) :
    (∀ names r, (lowerKind cx id inLoop (.imports names)).run t = .ok r →
      ImportsModules t id t.registry names r.code r.tree.registry) ∧
    (∀ path names r, path.first? ≠ some nativeRoot →
      (lowerKind cx id inLoop (.importsFrom path names 0)).run t = .ok r →
      ImportsFrom t id t.registry path names r.code r.tree.registry) ∧
    (∀ libroot (path : ModulePath), (path.packagePaths libroot).Nodup) ∧
    (∀ (path : ModulePath) (packages : List Package),
      (Call.importModule (path.join ".") packages).text =
        "πg.ImportModule(πF, " ++ Text.quote (".".intercalate path.parts) ++ ", []*πg.Code\x7b" ++
          ", ".intercalate (packages.map (·.goName ++ ".Code")) ++ "\x7d)") ∧
    ∀ s, (ModulePath.ofText s).parts ≠ [] ∧ (ModulePath.ofText s).join "." = s := by
  refine ⟨fun names r h => ?_, fun path names r hnative h => ?_, ?_, importModule_text, fun s => ?_⟩
  · exact importModules_run hid names (.refl t) h
  · exact importFrom_run hid hnative h
  · exact fun libroot path => path.nodup_packagePaths libroot
  · exact ⟨ModulePath.ofText_ne_nil s, ModulePath.join_ofText s⟩

/-- A function with the local name `p` that declares `os` global. -/
def ScopeTree.importing : ScopeTree :=
  ((initialTree {}).pushFunction moduleId "f"
    ⟨⟨[⟨"os", .global⟩, ⟨"p", .local⟩]⟩, false⟩).2

/-- `import os, os.path as p` and `from os.path import join as p`. -/
theorem imports_consistent_path : ∃ r r' : Built Unit,
    ImportsModules .importing 1 ScopeTree.importing.registry
      [⟨⟨["os"]⟩, none⟩, ⟨⟨["os", "path"]⟩, some "p"⟩] r.code r.tree.registry ∧
    ImportsFrom .importing 1 ScopeTree.importing.registry ⟨["os", "path"]⟩
      [⟨⟨["join"]⟩, some "p"⟩] r'.code r'.tree.registry := by
  have hid : (ScopeTree.importing.scope? 1).isSome := rfl
  obtain ⟨hplain, hfrom, -⟩ := @imports_consistent ⟨{}, none⟩ 1 false ScopeTree.importing hid
  obtain ⟨r, hr⟩ : ∃ r, (lowerKind ⟨{}, none⟩ 1 false
      (.imports [⟨⟨["os"]⟩, none⟩, ⟨⟨["os", "path"]⟩, some "p"⟩])).run .importing = .ok r :=
    ok_of_toBool (by decide +kernel)
  obtain ⟨r', hr'⟩ : ∃ r, (lowerKind ⟨{}, none⟩ 1 false
      (.importsFrom ⟨["os", "path"]⟩ [⟨⟨["join"]⟩, some "p"⟩] 0)).run .importing = .ok r :=
    ok_of_toBool (by decide +kernel)
  exact ⟨r, r', hplain _ r hr, hfrom _ _ r' (by decide) hr'⟩

/-- The names of the packages of a module. -/
example : ModulePath.packagePaths "lib" ⟨["os", "path"]⟩ = ["lib/os", "lib/os/path"] := by
  decide

end Goward
