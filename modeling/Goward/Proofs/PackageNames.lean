import Goward.Proofs.Declarations

/-!
# Names of packages

Which of the names that the code uses for packages are identifiers of Go. A name is made from a path
in which a letter stands for the slash, and every other character is kept. What a module says itself
consists of words, so a character that no identifier may have can only come from the library root.
Main result: the names of all packages that a module imports are identifiers, except those below a
library root with a dot or a hyphen.
-/

namespace Goward

open Goward.Code Goward.Layout Goward.Text

namespace Text

/-- A character of a component of an import path. -/
def isPathChar (c : Char) : Bool := c.isAlphanum || c == '_' || c == '-' || c == '.'

/-- An import path of Go: components that are not empty, with slashes between them. -/
def IsImportPath (path : String) : Prop :=
  ∃ parts : List String, parts ≠ [] ∧
    (∀ part ∈ parts, part ≠ "" ∧ part.toList.all isPathChar = true) ∧ path = "/".intercalate parts

/-- A letter of the Greek alphabet. -/
def isGreek (c : Char) : Bool :=
  (0x391 ≤ c.toNat && c.toNat ≤ 0x3A9 && c.toNat != 0x3A2) || (0x3B1 ≤ c.toNat && c.toNat ≤ 0x3C9)

/-- A letter of Go or an underscore. Of the letters beyond ASCII only the Greek ones are listed:
names of packages have no others. -/
def isGoLetter (c : Char) : Bool := c.isAlpha || c == '_' || isGreek c

/-- A character that an identifier of Go may have behind the first one. -/
def isGoPart (c : Char) : Bool := isGoLetter c || c.isDigit

/-- An identifier of Go: a letter or an underscore, and then letters, digits and underscores. -/
def isGoIdentifier (s : String) : Bool :=
  match s.toList with
  | [] => false
  | first :: rest => isGoLetter first && rest.all isGoPart

/-- Of the characters in the components of import paths, two are in no identifier. -/
theorem isGoPart_iff {c : Char} (h : isPathChar c = true) :
    isGoPart c = true ↔ c ≠ '.' ∧ c ≠ '-' := by
  constructor
  · intro hpart
    constructor <;> rintro rfl <;> exact absurd hpart (by decide)
  · rintro ⟨hdot, hhyphen⟩
    have hword : (c.isAlpha = true ∨ c.isDigit = true) ∨ c = '_' := by
      simpa [isPathChar, Char.isAlphanum, hdot, hhyphen] using h
    rcases hword with (halpha | hdigit) | rfl
    · simp [isGoPart, isGoLetter, halpha]
    · simp [isGoPart, hdigit]
    · decide

theorem isGoPart_of_isWord {s : String} (h : Registry.isWord s = true) :
    ∀ c ∈ s.toList, isGoPart c = true := by
  intro c hc
  have hword := List.all_eq_true.mp h c hc
  have hpath : isPathChar c = true := by
    rw [isPathChar, hword]
    rfl
  refine (isGoPart_iff hpath).mpr ⟨?_, ?_⟩ <;> rintro rfl <;> exact absurd hword (by decide)

/-- The characters of a path are slashes and those of its components. -/
theorem mem_path {parts : List String} {P : Char → Prop}
    (h : ∀ part ∈ parts, ∀ c ∈ part.toList, P c) :
    ∀ c ∈ ("/".intercalate parts).toList, c = '/' ∨ P c := by
  refine intercalate_induction (P := fun s => ∀ c ∈ s.toList, c = '/' ∨ P c) nofun ?_ ?_ ?_
  · intro a b ha hb c hc
    rw [String.toList_append] at hc
    exact (List.mem_append.mp hc).elim (ha c) (hb c)
  · intro c hc
    exact .inl (List.mem_singleton.mp hc)
  · exact fun part hpart c hc => .inr (h part hpart c hc)

theorem IsImportPath.chars {path : String} (h : IsImportPath path) :
    ∀ c ∈ path.toList, c = '/' ∨ isPathChar c = true := by
  obtain ⟨parts, -, hparts, rfl⟩ := h
  exact mem_path fun part hpart => List.all_eq_true.mp (hparts part hpart).2

theorem IsImportPath.oneLine {path : String} (h : IsImportPath path) : OneLine path := by
  intro hn
  rcases h.chars _ hn with hslash | hchar
  · exact absurd hslash (by decide)
  · exact absurd hchar (by decide)

end Text

theorem PathFrom.isGoPart {ids : List String} {path : String} (h : PathFrom ids path)
    (hids : ∀ x ∈ ids, Registry.isWord x = true) :
    ∀ c ∈ path.toList, c = '/' ∨ Text.isGoPart c = true := by
  obtain ⟨parts, hparts, rfl⟩ := h
  exact mem_path fun part hpart => isGoPart_of_isWord (hids part (hparts part hpart))

namespace Package

variable {o : Options} {ids : List String} {p : Package}

/-- A name made from a path is an identifier if the path has nothing but slashes and characters of
identifiers. -/
theorem isGoIdentifier_ofPath (path : String) : isGoIdentifier (ofPath path).goName = true ↔
    ∀ c ∈ path.toList, c = '/' ∨ isGoPart c = true := by
  have hchars : (ofPath path).goName.toList =
      'π' :: '_' :: path.toList.flatMap fun c => if c = '/' then ['Γ'] else [c] := by
    simp [ofPath, substituteChar, String.toList_append]
  have hchar (c : Char) : (if c = '/' then ['Γ'] else [c]).all isGoPart = true ↔
      c = '/' ∨ isGoPart c = true := by
    split
    · next hslash => simp [hslash, show isGoPart 'Γ' = true by decide]
    · next hslash => simp [hslash]
  have hfirst : isGoLetter 'π' = true := by decide
  have hsecond : isGoPart '_' = true := by decide
  rw [isGoIdentifier, hchars]
  simp only [hfirst, hsecond, List.all_cons, Bool.true_and, List.all_flatMap, List.all_eq_true]
  exact forall₂_congr fun c _ => by rw [← hchar c, List.all_eq_true]

/-- A package below a library root with characters that no identifier has. -/
def KeepsMarks (o : Options) (p : Package) : Prop :=
  p.name ≠ o.runtime ∧ (o.libroot ++ "/").toList <+: p.name.toList ∧
    ('.' ∈ o.libroot.toList ∨ '-' ∈ o.libroot.toList)

/-- A package of a unit is the runtime, or it has a name made from its path. -/
theorem From.cases (h : p.From o ids) : p = ⟨o.runtime, runtimeAlias⟩ ∨
    p.name ≠ o.runtime ∧ p = .ofPath p.name ∧ (p.name = "reflect" ∨ PathFrom ids p.name ∨
      ∃ below, p.name = o.libroot ++ "/" ++ below ∧ PathFrom ids below) := by
  obtain ⟨path, rfl, hpath⟩ := h
  rw [Registry.packageFor]
  split
  · exact .inl (if_pos rfl)
  · next hname =>
    rw [Registry.packageAt]
    split
    · exact .inl rfl
    · next hruntime => exact .inr ⟨hruntime, rfl, hpath.resolve_left hname⟩

theorem From.isGoIdentifier_iff (h : p.From o ids) (hlibroot : IsImportPath o.libroot)
    (hids : ∀ x ∈ ids, Registry.isWord x = true) :
    isGoIdentifier p.goName = true ↔ ¬ p.KeepsMarks o := by
  rcases h.cases with rfl | ⟨hruntime, hp, hpath⟩
  · exact iff_of_true (by decide : isGoIdentifier "πg" = true) fun hmarks => hmarks.1 rfl
  rw [hp, isGoIdentifier_ofPath, ← hp]
  constructor
  · -- A mark of the library root would be in the path.
    rintro hchars ⟨-, hbelow, hmark⟩
    have hroot : o.libroot.toList ⊆ p.name.toList := by
      rw [String.toList_append] at hbelow
      exact fun c hc => hbelow.subset (List.mem_append_left _ hc)
    rcases hmark with hdot | hhyphen
    · exact absurd (hchars _ (hroot hdot)) (by decide)
    · exact absurd (hchars _ (hroot hhyphen)) (by decide)
  · intro hunmarked
    rcases hpath with hreflect | hnative | ⟨below, hname, hbelow⟩
    · have hword : Registry.isWord "reflect" = true := by decide +kernel
      rw [hreflect]
      exact fun c hc => .inr (isGoPart_of_isWord hword c hc)
    · exact hnative.isGoPart hids
    · have hprefix : (o.libroot ++ "/").toList <+: p.name.toList := by
        rw [hname]
        exact ⟨below.toList, String.toList_append.symm⟩
      intro c hc
      simp only [hname, String.toList_append, List.mem_append] at hc
      rcases hc with (hc | hc) | hc
      · refine (hlibroot.chars c hc).imp_right fun hchar => (isGoPart_iff hchar).mpr ⟨?_, ?_⟩
        · rintro rfl
          exact hunmarked ⟨hruntime, hprefix, .inl hc⟩
        · rintro rfl
          exact hunmarked ⟨hruntime, hprefix, .inr hc⟩
      · exact .inl (List.mem_singleton.mp hc)
      · exact hbelow.isGoPart hids c hc

end Package

/-! ### Modules -/

/-- The lines of the import declaration stand in the file one after another. -/
theorem LoweredModule.text_around {m : LoweredModule} {ls : List String} (o : Options)
    (h : Writes (Op.imports m.registry.imports) ls) :
    ∃ front back, m.text o = front ++ String.ofList (unlines (ls.map String.toList)) ++ back := by
  have hblock : render 0 (Op.imports m.registry.imports) =
      String.ofList (unlines (ls.map String.toList)) := by
    rw [render_eq_rows, h 0]
    rfl
  have hsplit : m.ops o = [.raw ("package " ++ o.packageName)] ++ (Op.imports m.registry.imports ++
      (m.registry.strings.map stringDeclaration ++ m.initializer o)) := by
    simp [ops, initializer]
  have hclause : ∀ op ∈ [Op.raw ("package " ++ o.packageName)], op.Stays :=
    fun op hop => List.mem_singleton.mp hop ▸ trivial
  refine ⟨render 0 [.raw ("package " ++ o.packageName)],
    render 0 (m.registry.strings.map stringDeclaration ++ m.initializer o), ?_⟩
  rw [LoweredModule.text, hsplit, render_append hclause, render_append (imports_stay _), hblock,
    String.append_assoc]

/-- The file of a module that compiles has an import declaration with the packages of the registry,
among them the runtime and all that the code mentions. -/
theorem compile_imports {o : Options} {source : Option String} {body : List Stmt} {text : String}
    (h : compile o source body = .ok text) (hruntime : OneLine o.runtime)
    (hlibroot : OneLine o.libroot) (hids : ∀ x ∈ Stmt.identifiersOfBody body, OneLine x) :
    ∃ m front back, lowerModule ⟨o, source.map .ofText⟩ body = .ok m ∧
      text = front ++ String.ofList (unlines ((["import ("] ++
        m.registry.imports.map Package.importLine ++ [")"]).map String.toList)) ++ back ∧
      ⟨o.runtime, Package.runtimeAlias⟩ ∈ m.registry.imports ∧
      (∀ p, .package p ∈ Step.mentionsOf true m.body → p ∈ m.registry.imports) ∧
      ∀ p ∈ m.registry.imports, p.From o (Stmt.identifiersOfBody body) := by
  obtain ⟨m, hm, rfl, himports⟩ := compile_packages_from h
  obtain ⟨m', hm', -, ha, hordered⟩ := compile_answers h
  obtain rfl : m = m' := Except.ok.inj (hm.symm.trans hm')
  have hregistered : ⟨o.runtime, Package.runtimeAlias⟩ ∈ m.registry.imports :=
    (ha.imports _).mpr (.inl (List.mem_singleton_self _))
  have hlines := LoweredModule.writes_imports hruntime hlibroot hids himports
    (List.ne_nil_of_mem hregistered) hordered
  obtain ⟨front, back, htext⟩ := m.text_around o hlines
  exact ⟨m, front, back, hm, htext, hregistered, fun p hp => ha.known _ hp, himports⟩

/-- Names of packages are identifiers of Go, unless the library root prevents that. If the runtime
and the library root have import paths, and every identifier of the module is a word, then the file
of a module that compiles has an import declaration with the packages of its registry, among them
the runtime and all that its code mentions; and the name of each of them is an identifier, except
exactly if the package is another one than the runtime, below a library root with a dot or a
hyphen. -/
theorem import_names_usable {o : Options} {source : Option String} {body : List Stmt}
    {text : String} (h : compile o source body = .ok text) (hruntime : IsImportPath o.runtime)
    (hlibroot : IsImportPath o.libroot)
    (hids : ∀ x ∈ Stmt.identifiersOfBody body, Registry.isWord x = true) :
    ∃ m front back, lowerModule ⟨o, source.map .ofText⟩ body = .ok m ∧
      text = front ++ String.ofList (unlines ((["import ("] ++
        m.registry.imports.map Package.importLine ++ [")"]).map String.toList)) ++ back ∧
      ⟨o.runtime, Package.runtimeAlias⟩ ∈ m.registry.imports ∧
      (∀ p, .package p ∈ Step.mentionsOf true m.body → p ∈ m.registry.imports) ∧
      ∀ p ∈ m.registry.imports, isGoIdentifier p.goName = true ↔ ¬ p.KeepsMarks o := by
  obtain ⟨m, front, back, hm, htext, hregistered, hmentioned, himports⟩ := compile_imports h
    hruntime.oneLine hlibroot.oneLine fun x hx => Registry.oneLine_of_isWord (hids x hx)
  exact ⟨m, front, back, hm, htext, hregistered, hmentioned,
    fun p hp => (himports p hp).isGoIdentifier_iff hlibroot hids⟩

/-- Imports a module with a dotted name and a member of a Go package. -/
def Stmt.importingBoth : List Stmt :=
  [.mk .nowhere (.imports [⟨⟨["os", "path"]⟩, none⟩]),
    .mk .nowhere (.importsFrom ⟨["__go__", "encoding", "json"]⟩ [⟨⟨["Marshal"]⟩, none⟩] 0)]

theorem isImportPath_runtime : IsImportPath "github.com/google/grumpy/runtime" :=
  ⟨["github.com", "google", "grumpy", "runtime"], List.cons_ne_nil _ _, by decide, by decide⟩

theorem import_names_usable_both :
    ∃ text m, compile {} none Stmt.importingBoth = .ok text ∧
      lowerModule ⟨{}, none⟩ Stmt.importingBoth = .ok m ∧
      (∀ p, .package p ∈ Step.mentionsOf true m.body → p ∈ m.registry.imports) ∧
      ∀ p ∈ m.registry.imports, isGoIdentifier p.goName = true := by
  obtain ⟨text, htext⟩ : ∃ text, compile {} none Stmt.importingBoth = .ok text :=
    Build.ok_of_toBool (by decide +kernel)
  have hlibroot : IsImportPath "__python__" :=
    ⟨["__python__"], List.cons_ne_nil _ _, by decide, by decide⟩
  have hids : ∀ x ∈ Stmt.identifiersOfBody Stmt.importingBoth, Registry.isWord x = true := by
    decide
  obtain ⟨m, -, -, hm, -, -, hmentioned, hnames⟩ :=
    import_names_usable htext isImportPath_runtime hlibroot hids
  have hunmarked (p : Package) : ¬ p.KeepsMarks {} := fun hmarks => absurd hmarks.2.2 (by decide)
  exact ⟨text, m, htext, hm, hmentioned, fun p hp => (hnames p hp).mpr (hunmarked p)⟩

/-- Options with a library root in which a component has a dot. -/
def Options.dotted : Options := { libroot := "github.com/google/grumpy/lib" }

/-- Imports one module. -/
def Stmt.importingOne : List Stmt := [.mk .nowhere (.imports [⟨⟨["os"]⟩, none⟩])]

/-- The name of a module below a library root with a dot is no identifier, although the file imports
the module under it and the code mentions it. -/
theorem import_name_keeps_dot :
    IsImportPath Options.dotted.runtime ∧ IsImportPath Options.dotted.libroot ∧
      (∀ x ∈ Stmt.identifiersOfBody Stmt.importingOne, Registry.isWord x = true) ∧
      ∃ text m front back p, compile .dotted none Stmt.importingOne = .ok text ∧
        lowerModule ⟨.dotted, none⟩ Stmt.importingOne = .ok m ∧
        text = front ++ String.ofList (unlines ((["import ("] ++
          m.registry.imports.map Package.importLine ++ [")"]).map String.toList)) ++ back ∧
        p ∈ m.registry.imports ∧ .package p ∈ Step.mentionsOf true m.body ∧
        p.goName = "π_github.comΓgoogleΓgrumpyΓlibΓos" ∧ isGoIdentifier p.goName = false := by
  have hlibroot : IsImportPath "github.com/google/grumpy/lib" :=
    ⟨["github.com", "google", "grumpy", "lib"], List.cons_ne_nil _ _, by decide, by decide⟩
  have hids : ∀ x ∈ Stmt.identifiersOfBody Stmt.importingOne, Registry.isWord x = true := by
    decide
  refine ⟨isImportPath_runtime, hlibroot, hids, ?_⟩
  obtain ⟨text, htext⟩ : ∃ text, compile .dotted none Stmt.importingOne = .ok text :=
    Build.ok_of_toBool (by decide +kernel)
  obtain ⟨m, front, back, hm, hlines, -, hmentioned, -⟩ := compile_imports htext
    isImportPath_runtime.oneLine hlibroot.oneLine fun x hx => Registry.oneLine_of_isWord (hids x hx)
  obtain ⟨m', hm', -, ha, -⟩ := compile_answers htext
  obtain rfl : m = m' := Except.ok.inj (hm.symm.trans hm')
  have hrequested : (Package.ofPath "github.com/google/grumpy/lib/os", true) ∈
      Request.packagesOfAll .dotted (Stmt.requestsOfBody Options.dotted.moduleName
        Stmt.importingOne) := by decide +kernel
  have hshown := ha.used _ hrequested
  exact ⟨text, m, front, back, _, htext, hm, hlines, hmentioned _ hshown, hshown, by decide,
    by decide⟩

end Goward
