import Goward.Proofs.Agreement
import Goward.Proofs.SourceLines

/-!
# Rows with lines of the source

If the source text is known, comments with its lines go into the code. They add rows of their own
and change no other ones, however often the text of a body is written into that around it: a row is
such a comment before it is moved to the right, or loses a carriage return at its end, just if it is
one after that. This asks for lines without a newline in them. What is cut out of a source that is too
long may have one, and then a part of the source becomes a row of code.
-/

namespace Goward

namespace Text

/-- Whether a row is, behind its tabs, a comment with a line of the source. -/
def isSourceLine (row : List Char) : Bool :=
  "// line ".toList.isPrefixOf (row.dropWhile (· == '\t'))

/-- The rows that are no comments with lines of the source. -/
def codeRows (rows : List (List Char)) : List (List Char) := rows.filter (!isSourceLine ·)

/-- A text without its comments with lines of the source. -/
def withoutSourceLines (t : String) : String :=
  String.ofList (['\n'].intercalate (codeRows (t.toList.splitOn '\n')))

theorem codeRows_append (a b : List (List Char)) :
    codeRows (a ++ b) = codeRows a ++ codeRows b := List.filter_append a b

theorem withoutSourceLines_unlines {rows : List (List Char)} (h : ∀ row ∈ rows, '\n' ∉ row) :
    withoutSourceLines (String.ofList (unlines rows)) = String.ofList (unlines (codeRows rows)) := by
  have hlast : codeRows [[]] = [[]] := rfl
  rw [withoutSourceLines, String.toList_ofList, splitOn_unlines h, codeRows_append, hlast,
    intercalate_append _ (List.cons_ne_nil _ _), List.intercalate_singleton, List.append_nil]

theorem isSourceLine_tabs (n : Nat) (l : List Char) :
    isSourceLine (List.replicate n '\t' ++ l) = isSourceLine l := opens_tabs "// line " n l

theorem isSourceLine_chopReturn (l : List Char) : isSourceLine (chopReturn l) = isSourceLine l :=
  opens_chopReturn "// line " rfl (by decide) l

theorem trim_subset (l : List Char) : trim l ⊆ l := by
  intro c hc
  have hfront := (List.dropWhile_sublist _).subset (List.mem_reverse.mp hc)
  exact (List.dropWhile_sublist _).subset (List.mem_reverse.mp hfront)

theorem codeRows_map_chopReturn (rows : List (List Char)) :
    codeRows (rows.map chopReturn) = (codeRows rows).map chopReturn := by
  rw [codeRows, List.filter_map, codeRows]
  congr 2
  funext row
  exact congrArg (!·) (isSourceLine_chopReturn row)

end Text

namespace Layout

open Goward.Text

theorem codeRows_laid (n : Nat) (ls : List (List Char)) :
    codeRows (laid n ls) = laid n (codeRows ls) := by
  have htabs : (fun row => !isSourceLine row) ∘ (List.replicate n '\t' ++ ·) =
      (!isSourceLine ·) := funext fun l => congrArg (!·) (isSourceLine_tabs n l)
  rw [codeRows, laid, List.filter_map, htabs, laid, codeRows, List.filter_filter,
    List.filter_filter]
  simp only [Bool.and_comm]

/-- Operations write the same rows, apart from comments with lines of the source. -/
def SameCode (a b : List Op) : Prop :=
  ∀ n, codeRows (Op.rowsAll a n).1 = codeRows (Op.rowsAll b n).1 ∧
    (Op.rowsAll a n).2 = (Op.rowsAll b n).2

namespace SameCode

variable {a a' b b' : List Op}

theorem refl (a : List Op) : SameCode a a := fun _ => ⟨rfl, rfl⟩

theorem append (ha : SameCode a a') (hb : SameCode b b') : SameCode (a ++ b) (a' ++ b') := by
  intro n
  rw [Op.rowsAll_append, Op.rowsAll_append, codeRows_append, codeRows_append, (ha n).1, (ha n).2,
    (hb _).1, (hb _).2]
  exact ⟨rfl, rfl⟩

theorem cons (op : Op) (h : SameCode a a') : SameCode (op :: a) (op :: a') := (refl [op]).append h

theorem within (shift : Int) (ha : SameCode a a') (hb : SameCode b b') :
    SameCode (.within shift a :: b) (.within shift a' :: b') := by
  intro n
  simp only [Op.rowsAll, Op.rows, codeRows_append, (ha _).1, (hb n).1, (hb n).2, and_self]

/-- The text of operations, written into another text. -/
theorem rendered (k : Nat) (h : SameCode a a') :
    SameCode [.raw (render k a)] [.raw (render k a')] := by
  intro n
  simp only [Op.rowsAll, Op.rows, Op.raw, Fragment.text, lines_render, List.append_nil,
    codeRows_laid, codeRows_map_chopReturn, (h k).1]
  trivial

/-- The text of operations, in the loop that dispatches to its labels. -/
theorem resumable (checkpoints : List Nat) (h : SameCode a a') :
    SameCode (resumable checkpoints a) (resumable checkpoints a') := by
  refine SameCode.append (.cons _ (.cons _ (.cons _ ?_))) (.refl _)
  refine .within 1 ?_ (.refl _)
  exact .append (.refl _) (.cons _ (.cons _ ((h.rendered 1).within (-1) (.refl []))))

theorem functionBody (header : Code.FunctionHeader) (temps : List Temp) {run run' : String}
    (h : SameCode [.raw run] [.raw run']) :
    SameCode (functionBody header temps run) (functionBody header temps run') := by
  refine .append (.refl _) ?_
  split
  · exact .cons _ (h.within 1 (.refl _))
  · exact h

end SameCode

/-- A comment with a line of the source is no code. -/
theorem SameCode.comment (number : Nat) {line : String} (h : '\n' ∉ line.toList) :
    SameCode [.put (.sourceLine number line)] [] := by
  intro n
  have htext : (Fragment.sourceLine number line).text.toList =
      "// line ".toList ++ ((toString number).toList ++ (": ".toList ++ trim line.toList)) := by
    simp [Fragment.sourceLine, Fragment.text, String.toList_append]
  have hnumber : '\n' ∉ (toString number).toList :=
    fun hc => absurd (isDigit_of_mem_toString _ hc) (by decide)
  have htrim : '\n' ∉ trim line.toList := fun hc => h (trim_subset _ hc)
  have hnewline : '\n' ∉ (Fragment.sourceLine number line).text.toList := by
    simp only [htext, List.mem_append, not_or]
    exact ⟨by decide, hnumber, by decide, htrim⟩
  have hmark : isSourceLine (Fragment.sourceLine number line).text.toList = true := by
    rw [htext, isSourceLine, List.isPrefixOf_iff_prefix]
    exact List.prefix_append _ _
  have hne : (Fragment.sourceLine number line).text.toList ≠ [] := by
    rw [htext]
    exact List.append_ne_nil_of_left_ne_nil (by decide) _
  have hrows : codeRows (lines (Fragment.sourceLine number line).text.toList) = [] := by
    rw [lines_eq_singleton hnewline hne, codeRows, List.filter_cons_of_neg (by simp [hmark])]
    rfl
  simp only [Op.rowsAll, Op.rows, List.append_nil, codeRows_laid, hrows]
  exact ⟨rfl, trivial⟩

end Layout

open Goward.Code Goward.Layout Goward.Text

/-! ### Code that is the same -/

theorem Layout.codeOps_append (filename : String) (a b : List Instr) :
    codeOps filename (a ++ b) = codeOps filename a ++ codeOps filename b := by
  induction a with
  | nil => rfl
  | cons i rest ih => rw [List.cons_append, codeOps, codeOps, ih, List.append_assoc]

/-- Linear code is the same, apart from comments with lines of the source. -/
def Code.SameInstrs (a b : List Instr) : Prop :=
  ∀ filename, SameCode (codeOps filename a) (codeOps filename b)

/-- Structured code is the same, apart from comments with lines of the source. -/
def Code.SameSteps (a b : List Step) : Prop :=
  ∀ l, (Step.linearAll a l).2 = (Step.linearAll b l).2 ∧
    SameInstrs (Step.linearAll a l).1 (Step.linearAll b l).1

namespace Code

theorem SameInstrs.refl (a : List Instr) : SameInstrs a a := fun _ => .refl _

theorem SameInstrs.append {a a' b b' : List Instr} (ha : SameInstrs a a') (hb : SameInstrs b b') :
    SameInstrs (a ++ b) (a' ++ b') := by
  intro filename
  rw [codeOps_append, codeOps_append]
  exact (ha filename).append (hb filename)

theorem SameInstrs.function {body body' : List Instr} (dst : Temp) (header : FunctionHeader)
    (temps : List Temp) (checkpoints : List Nat) (h : SameInstrs body body') :
    SameInstrs [.function dst header temps checkpoints body]
      [.function dst header temps checkpoints body'] := by
  intro filename
  have hrun := ((h filename).resumable checkpoints).rendered 0
  have hops := (hrun.functionBody header temps).within 1 (.refl [.raw "\x7d), πGlobals).ToObject()"])
  simp only [codeOps, instrOps, List.append_nil]
  exact .cons _ hops

theorem SameInstrs.classBody {body body' : List Instr} (dst : Temp) (name : String) (names : Temp)
    (temps : List Temp) (checkpoints : List Nat) (h : SameInstrs body body') :
    SameInstrs [.classBody dst name names temps checkpoints body]
      [.classBody dst name names temps checkpoints body'] := by
  intro filename
  have hrun := ((h filename).resumable checkpoints).rendered 0
  simp only [codeOps, instrOps, List.append_nil]
  exact .cons _ (.within 1 (.cons _ (.cons _ (.cons _ hrun))) (.refl _))

namespace SameSteps

variable {a a' b b' test test' bind bind' body body' : List Step}
  {orelse orelse' : Option (List Step)}

theorem refl (a : List Step) : SameSteps a a := fun _ => ⟨rfl, .refl _⟩

theorem append (ha : SameSteps a a') (hb : SameSteps b b') : SameSteps (a ++ b) (a' ++ b') := by
  intro l
  rw [Step.linearAll_append, Step.linearAll_append, (ha l).1]
  exact ⟨(hb _).1, (ha l).2.append (hb _).2⟩

theorem branch (cond : Temp) (htest : SameSteps test test') (hbody : SameSteps body body')
    (horelse : SameElse SameSteps orelse orelse') :
    SameSteps [.branch test cond body orelse] [.branch test' cond body' orelse'] := by
  intro l
  cases orelse with
  | none =>
    cases orelse' with
    | some other => exact horelse.elim
    | none =>
      have ht := htest l.fresh.2
      have hb := hbody (Step.linearAll test' l.fresh.2).2
      simp only [Step.linearAll, Step.linear, List.append_nil, ht.1]
      exact ⟨hb.1, ((ht.2.append (.refl _)).append hb.2).append (.refl _)⟩
  | some other =>
    cases orelse' with
    | none => exact horelse.elim
    | some other' =>
      have ht := htest l.fresh.2.fresh.2
      have hb := hbody (Step.linearAll test' l.fresh.2.fresh.2).2
      have ho : SameSteps other other' := horelse
      simp only [Step.linearAll, Step.linear, List.append_nil, ht.1, hb.1]
      exact ⟨(ho _).1, (((((ht.2.append (.refl _)).append hb.2).append (.refl _)).append
        (ho _).2).append (.refl _))⟩

theorem whileLoop (cond : Temp) (htest : SameSteps test test') (hbody : SameSteps body body')
    (horelse : SameElse SameSteps orelse orelse') :
    SameSteps [.whileLoop test cond body orelse] [.whileLoop test' cond body' orelse'] := by
  intro l
  cases orelse with
  | none =>
    cases orelse' with
    | some other => exact horelse.elim
    | none =>
      have ht := htest l.openLoop.2
      have hb := hbody (Step.linearAll test' l.openLoop.2).2
      simp only [Step.linearAll, Step.linear, List.append_nil, ht.1, hb.1]
      exact ⟨trivial, ((((SameInstrs.refl _).append ht.2).append (.refl _)).append hb.2).append
        (.refl _)⟩
  | some other =>
    cases orelse' with
    | none => exact horelse.elim
    | some other' =>
      have ht := htest l.openLoop.2.fresh.2
      have hb := hbody (Step.linearAll test' l.openLoop.2.fresh.2).2
      have ho : SameSteps other other' := horelse
      simp only [Step.linearAll, Step.linear, List.append_nil, ht.1, hb.1]
      exact ⟨(ho _).1, ((((((SameInstrs.refl _).append ht.2).append (.refl _)).append hb.2).append
        (.refl _)).append (ho _).2).append (.refl _)⟩

theorem forLoop (iterator item : Temp) (hbind : SameSteps bind bind')
    (hbody : SameSteps body body') (horelse : SameElse SameSteps orelse orelse') :
    SameSteps [.forLoop iterator item bind body orelse]
      [.forLoop iterator item bind' body' orelse'] := by
  intro l
  cases orelse with
  | none =>
    cases orelse' with
    | some other => exact horelse.elim
    | none =>
      have hi := hbind l.openLoop.2
      have hb := hbody (Step.linearAll bind' l.openLoop.2).2
      simp only [Step.linearAll, Step.linear, List.append_nil, hi.1, hb.1]
      exact ⟨trivial, (((SameInstrs.refl _).append hi.2).append hb.2).append (.refl _)⟩
  | some other =>
    cases orelse' with
    | none => exact horelse.elim
    | some other' =>
      have hi := hbind l.openLoop.2.fresh.2
      have hb := hbody (Step.linearAll bind' l.openLoop.2.fresh.2).2
      have ho : SameSteps other other' := horelse
      simp only [Step.linearAll, Step.linear, List.append_nil, hi.1, hb.1]
      exact ⟨(ho _).1, (((((SameInstrs.refl _).append hi.2).append hb.2).append (.refl _)).append
        (ho _).2).append (.refl _)⟩

theorem function (dst : Temp) (header : FunctionHeader) (temps : List Temp)
    (h : SameSteps body body') :
    SameSteps [.function dst header temps body] [.function dst header temps body'] := by
  intro l
  simp only [Step.linearAll, Step.linear, List.append_nil, (h {}).1]
  exact ⟨trivial, (h {}).2.function dst header temps _⟩

theorem classBody (dst : Temp) (name : String) (names : Temp) (temps : List Temp)
    (h : SameSteps body body') :
    SameSteps [.classBody dst name names temps body] [.classBody dst name names temps body'] := by
  intro l
  simp only [Step.linearAll, Step.linear, List.append_nil, (h {}).1]
  exact ⟨trivial, (h {}).2.classBody dst name names temps _⟩

theorem comment (number : Nat) {line : String} (h : '\n' ∉ line.toList) :
    SameSteps [.action (.sourceLine number line)] [] :=
  fun _ => ⟨rfl, fun _ => .comment number h⟩

end SameSteps

end Code

/-- The files of two modules that differ in the code of their bodies only. -/
theorem LoweredModule.sameCode (m m' : LoweredModule) (o : Options)
    (hregistry : m.registry = m'.registry) (htemps : m.temps = m'.temps)
    (hbody : SameSteps m.body m'.body) : SameCode (m.ops o) (m'.ops o) := by
  have hrun := (((hbody {}).2 o.filename).resumable
    (Step.linearAll m'.body {}).2.checkpoints).rendered 0
  simp only [LoweredModule.ops, initOps, hregistry, htemps, (hbody {}).1]
  have hinit := SameCode.cons (.raw ("Code = " ++ codeOpening o.filename "<module>"))
    (SameCode.within 1 (.cons (.raw (render 0 (declarations m'.temps))) hrun)
      (.refl [.raw "\x7d)", .raw ("πg.RegisterModule(" ++ Text.quote o.moduleName ++ ", Code)")]))
  exact .append (.refl _) (.cons _ (.cons _ (hinit.within 1 (.refl _))))

theorem LoweredModule.writesRow_initOps {m : LoweredModule} {o : Options} {R : List Char → Prop}
    (hR : Lasting R) (h : WritesRow R (codeOps o.filename (Step.linearAll m.body {}).1)) :
    WritesRow R (m.initOps o) := by
  have hrun := (h.resumable hR (Step.linearAll m.body {}).2.checkpoints).rendered hR 0
  exact (((hrun.right [_]).within 1).right [_]).left [_, _]

/-- A row with the beginning of a string literal. -/
def Stray (row : List Char) : Prop := ∃ n, row = List.replicate n '\t' ++ ['"', 'y']

theorem lasting_stray : Lasting Stray where
  chopReturn := by
    rintro _ ⟨n, rfl⟩
    have hlast : (List.replicate n '\t' ++ ['"', 'y']).getLast? ≠ some '\r' := by simp
    exact ⟨n, if_neg hlast⟩
  tabs := by
    rintro _ ⟨k, rfl⟩ n
    exact ⟨n + k, by rw [List.replicate_add, List.append_assoc]⟩
  not_blank := by
    rintro _ ⟨n, rfl⟩
    rw [List.all_append]
    simp +decide

theorem Stray.not_sourceLine {row : List Char} (h : Stray row) : isSourceLine row = false := by
  obtain ⟨n, rfl⟩ := h
  rw [isSourceLine_tabs]
  decide

/-- A line of the source that is broken in two leaves its second part behind as a row. -/
theorem Stray.of_sourceLine (number : Nat) {first : List Char}
    (hfirst : ∀ c ∈ first, isBlank c = false) : WritesRow Stray
      [.put (.sourceLine number (String.ofList ('x' :: first ++ ['\n', '"', 'y'])))] := by
  have htrim : trim ('x' :: first ++ ['\n', '"', 'y']) = 'x' :: first ++ '\n' :: ['"', 'y'] := by
    have hend := dropEndWhile_concat (p := isBlank) (c := 'y') (by decide)
      ('x' :: first ++ ['\n', '"'])
    rw [trim, List.cons_append, List.dropWhile_cons_of_neg (by decide)]
    rwa [List.append_assoc] at hend
  have hnumber : '\n' ∉ (toString number).toList :=
    fun hc => absurd (isDigit_of_mem_toString _ hc) (by decide)
  have hbefore : '\n' ∉ ("// line " ++ toString number ++ ": ").toList ++ 'x' :: first := by
    simp only [String.toList_append, List.mem_append, List.mem_cons, not_or]
    exact ⟨⟨⟨by decide, hnumber⟩, by decide⟩, by decide,
      fun hc => absurd (hfirst _ hc) (by decide)⟩
  refine .of_piece lasting_stray (?_ : ['"', 'y'] ∈ _) ⟨0, rfl⟩
  rw [Fragment.sourceLine, Fragment.text, String.toList_append, String.toList_ofList,
    String.toList_ofList, htrim, ← List.append_assoc,
    List.splitOn_append_cons_self_of_not_mem hbefore]
  exact List.mem_cons_of_mem _ (List.mem_singleton.mpr rfl)

/-- A module with one statement, which does nothing and is said to stand at the offset 7. -/
def Stmt.placed : List Stmt := [.mk ⟨7, 1⟩ .pass]

/-- The rows of the line of the source at the offset 7 are among those of its file. -/
theorem compile_placed {R : List Char → Prop} (hR : Lasting R) {source : String} {line : Nat}
    (hline : (LineMap.ofText source).lineOf 7 = line) (hrow : WritesRow R [.put (.sourceLine
      ((line + 1) % UInt32.size) ((LineMap.ofText source).lineText source line))]) :
    ∃ text, compile {} (some source) Stmt.placed = .ok text ∧
      ∃ row ∈ text.toList.splitOn '\n', R row := by
  subst hline
  obtain ⟨m, hm⟩ : ∃ m : LoweredModule, m = ⟨(initialTree {}).registry, [],
      [.action (.sourceLine (((LineMap.ofText source).lineOf 7 + 1) % UInt32.size)
        ((LineMap.ofText source).lineText source ((LineMap.ofText source).lineOf 7))),
        .ret none]⟩ := ⟨_, rfl⟩
  have hlower : lowerModule ⟨{}, some (.ofText source)⟩ Stmt.placed = .ok m := hm ▸ rfl
  have hcode : WritesRow R (codeOps ({} : Options).filename (Step.linearAll m.body {}).1) := by
    subst hm
    exact hrow.left _
  have hops : WritesRow R (m.ops {}) :=
    (((LoweredModule.writesRow_initOps hR hcode).within 1).left [.raw "\x7d"]).right [_, _]
      |>.right _
  obtain ⟨row, hmem, hrow⟩ := hops 0
  refine ⟨m.text {}, by rw [compile, Option.map_some, hlower]; rfl, row, ?_, hrow⟩
  rw [LoweredModule.text, render_eq_rows, String.toList_ofList,
    splitOn_unlines (Op.not_mem_rowsAll _ _)]
  exact List.mem_append_left _ hmem

/-- The end of a source that is too long becomes a row of code. -/
theorem compile_overlong : ∃ text, compile {} (some LineMap.overlong) Stmt.placed = .ok text ∧
    ∃ row ∈ text.toList.splitOn '\n', Stray row := by
  refine compile_placed lasting_stray LineMap.lineOf_overlong ?_
  have hsize : UInt32.size - 1 = (UInt32.size - 2) + 1 := by decide
  rw [LineMap.lineText_overlong, hsize, List.replicate_succ]
  refine Stray.of_sourceLine _ fun c hc => ?_
  rw [List.eq_of_mem_replicate hc]
  decide

end Goward
