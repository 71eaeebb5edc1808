import Goward.Proofs.NestedCode

/-!
# Comments with lines of the source

A module compiles with its source just if it compiles without it, and with the same error if not. The
two files differ in the comments with lines of the source only, as long as the offsets of these lines
fit; in the file for a longer source a part of it may be code.
-/

namespace Goward

open Goward.Code Goward.Layout Goward.Text

/-- The other sides of branches are the same if those are for which this holds under a condition. -/
theorem SameElse.of_condition {P : Prop} {Same : List Step → List Step → Prop}
    {orelse orelse' : Option (List Step)} (h : SameElse (fun a b => P → Same a b) orelse orelse')
    (hP : P) : SameElse Same orelse orelse' := by
  cases orelse <;> cases orelse'
  · exact trivial
  · exact h.elim
  · exact h.elim
  · exact h hP

/-- Code is compared up to comments with lines of the source, if these fit, and the registries are the
same. -/
def upToComments (fits : Prop) : Comparison where
  Same a b := fits → SameSteps a b
  Related := Eq
  refl a _ := .refl a
  append ha hb h := (ha h).append (hb h)
  branch cond ht hb ho h := .branch cond (ht h) (hb h) (ho.of_condition h)
  whileLoop cond ht hb ho h := .whileLoop cond (ht h) (hb h) (ho.of_condition h)
  forLoop iterator item hi hb ho h := .forLoop iterator item (hi h) (hb h) (ho.of_condition h)
  function dst header temps hb h := .function dst header temps (hb h)
  classBody dst name names temps hb h := .classBody dst name names temps (hb h)
  intern := by
    rintro r _ s rfl
    rfl
  libroot := by
    rintro r _ rfl
    rfl
  addNative := by
    rintro r _ path rfl
    exact ⟨rfl, rfl⟩

/-- What a statement puts down of the source text are comments. -/
theorem sameContext_source (o : Options) (source : String) :
    SameContext (upToComments (LineMap.Addressable source)) o ⟨o, some (.ofText source)⟩
      ⟨o, none⟩ where
  options := rfl
  annotate i j span t u h := by
    simp only [Build.annotate]
    split
    · exact .ok rfl (fun _ => .refl []) h
    · exact .ok rfl (fun hfits => .comment _ (SourceText.not_mem_lineAt hfits _)) h

/-- The source text adds comments and nothing else: a module compiles with it if it compiles without
it, fails with the same error if not, and the files are the same without the comment lines if the lines
of the source have offsets that fit. -/
theorem compile_source_comments (o : Options) (source : String) (body : List Stmt) :
    (compile o (some source) body).map (fun _ => ()) = (compile o none body).map (fun _ => ()) ∧
    (LineMap.Addressable source → (compile o (some source) body).map withoutSourceLines =
      (compile o none body).map withoutSourceLines) := by
  have hstart : Alike (upToComments (LineMap.Addressable source)) o ScopeTree.moduleId
      ScopeTree.moduleId (initialTree o) (initialTree o) :=
    ⟨.initial, .initial, initialTree_isSome o, initialTree_isSome o, .refl _, rfl, rfl, rfl⟩
  have hrun := Build.bodyWithEnd_agree false (lowerBody_agree (sameContext_source o source) _ _
    false body) _ _ hstart
  have hcompile (source : Option String) : compile o source body =
      ((Build.bodyWithEnd false (lowerBody ⟨o, source.map .ofText⟩ ScopeTree.moduleId false
        body)).run (initialTree o)).map fun r => LoweredModule.text
          ⟨r.tree.registry, (r.tree.resources ScopeTree.moduleId).pool.temps, r.value⟩ o := by
    cases hc : compile o source body with
    | error e => rw [compile_error hc, Except.map]
    | ok text =>
      obtain ⟨r, hr, rfl⟩ := compile_ok hc
      rw [hr, Except.map]
  rw [hcompile, hcompile, Option.map_some, Option.map_none]
  generalize (Build.bodyWithEnd false (lowerBody ⟨o, some (.ofText source)⟩
    ScopeTree.moduleId false body)).run (initialTree o) = x at hrun
  generalize (Build.bodyWithEnd false (lowerBody ⟨o, none⟩
    ScopeTree.moduleId false body)).run (initialTree o) = y at hrun
  cases hrun with
  | error e => exact ⟨rfl, fun _ => rfl⟩
  | @ok r r' hv hc hp =>
    refine ⟨rfl, fun hfits => ?_⟩
    have hops := LoweredModule.sameCode
      ⟨r.tree.registry, (r.tree.resources ScopeTree.moduleId).pool.temps, r.value⟩
      ⟨r'.tree.registry, (r'.tree.resources ScopeTree.moduleId).pool.temps, r'.value⟩
      o hp.registry (congrArg (·.pool.temps) hp.resources) (hv hfits)
    simp only [Except.map, LoweredModule.text, render_eq_rows]
    rw [withoutSourceLines_unlines (Op.not_mem_rowsAll _ _),
      withoutSourceLines_unlines (Op.not_mem_rowsAll _ _), (hops 0).1]

/-- The file of a module with a source of three lines. -/
theorem compile_source_comments_short : LineMap.Addressable "def f():\n\n  pass\r\n" ∧
    (compile {} (some "def f():\n\n  pass\r\n") Stmt.placed).map withoutSourceLines =
      (compile {} none Stmt.placed).map withoutSourceLines := by
  have hfits : LineMap.Addressable "def f():\n\n  pass\r\n" := by decide +kernel
  exact ⟨hfits, (compile_source_comments _ _ _).2 hfits⟩

/-- The rows of a text without its comments, if one is left. -/
theorem Text.splitOn_withoutSourceLines {text : String}
    (h : codeRows (text.toList.splitOn '\n') ≠ []) :
    (withoutSourceLines text).toList.splitOn '\n' = codeRows (text.toList.splitOn '\n') := by
  rw [withoutSourceLines, String.toList_ofList]
  refine List.splitOn_intercalate _ (fun row hrow => ?_) h
  exact not_mem_of_mem_splitOn (List.mem_filter.mp hrow).1

/-- A stray row is no comment, so it is among what is compared, and only there if it is in the text. -/
theorem Stray.mem_withoutSourceLines {text : String} {row : List Char} (h : Stray row) :
    row ∈ (withoutSourceLines text).toList.splitOn '\n' ↔ row ∈ text.toList.splitOn '\n' := by
  have hcode : row ∈ codeRows (text.toList.splitOn '\n') ↔ row ∈ text.toList.splitOn '\n' := by
    rw [codeRows, List.mem_filter, h.not_sourceLine]
    exact and_iff_left rfl
  rw [← hcode]
  by_cases hne : codeRows (text.toList.splitOn '\n') = []
  · have hempty : (withoutSourceLines text).toList.splitOn '\n' = [[]] := by
      rw [withoutSourceLines, hne]
      rfl
    rw [hempty, hne, List.mem_singleton]
    refine iff_of_false ?_ List.not_mem_nil
    rintro rfl
    exact absurd (lasting_stray.not_blank h) (by decide)
  · rw [splitOn_withoutSourceLines hne]

/-- A source that is too long adds a line of code, in which a literal is opened. -/
theorem compile_overlong_adds_code :
    (compile {} (some LineMap.overlong) Stmt.placed).map withoutSourceLines ≠
      (compile {} none Stmt.placed).map withoutSourceLines := by
  intro hsame
  obtain ⟨text, htext, row, hmem, hrow⟩ := compile_overlong
  rw [htext, Except.map] at hsame
  obtain ⟨plain, hplain⟩ : ∃ plain, compile {} none Stmt.placed = .ok plain :=
    Build.ok_of_toBool (by decide +kernel)
  rw [hplain, Except.map] at hsame
  -- The file without a source is delimited, so it has no such row.
  obtain ⟨m, -, rfl, himports, hstrings, htemps, hcode⟩ := compile_provenance hplain nofun
  have hinert : Options.Inert {} := ⟨.literal rfl, .literal rfl, .literal rfl⟩
  have hids : ∀ x ∈ Stmt.identifiersOfBody Stmt.placed, Registry.isWord x = true := nofun
  have hdelimited := LoweredModule.delimited_text hinert hids himports hstrings htemps hcode
  refine Stray.not_delimited ⟨row, ?_, hrow⟩ hdelimited
  rwa [← hrow.mem_withoutSourceLines, ← Except.ok.inj hsame, hrow.mem_withoutSourceLines]

end Goward
