import Goward.Proofs.Writing

/-!
# Rows

What operations write is a sequence of rows: lines without a newline in them, each followed by one.
The rows of a text at a level are its lines that are not blank, behind the tabs of the level. When a
text that is made of rows is written into another one, it falls into the same rows again, up to a
carriage return at the end of each.
-/

namespace Goward

namespace Text

/-- Lines one after another, each with a newline behind it. -/
def unlines (ls : List (List Char)) : List Char := ls.flatMap (· ++ ['\n'])

@[simp] theorem unlines_nil : unlines [] = [] := rfl

@[simp] theorem unlines_cons (l : List Char) (ls : List (List Char)) :
    unlines (l :: ls) = l ++ '\n' :: unlines ls := by
  simp [unlines]

@[simp] theorem unlines_append (as bs : List (List Char)) :
    unlines (as ++ bs) = unlines as ++ unlines bs := List.flatMap_append

theorem splitOn_unlines {ls : List (List Char)} (h : ∀ l ∈ ls, '\n' ∉ l) :
    (unlines ls).splitOn '\n' = ls ++ [[]] := by
  induction ls with
  | nil => exact List.splitOn_nil '\n'
  | cons l rest ih =>
    rw [unlines_cons, List.splitOn_append_cons_self_of_not_mem (h l List.mem_cons_self),
      ih fun l hl => h l (List.mem_cons_of_mem _ hl), List.cons_append]

theorem lines_unlines {ls : List (List Char)} (h : ∀ l ∈ ls, '\n' ∉ l) :
    lines (unlines ls) = ls.map chopReturn := by
  simp [lines, splitOn_unlines h]

theorem not_mem_of_mem_splitOn {sep : Char} {s l : List Char} (h : l ∈ s.splitOn sep) :
    sep ∉ l := by
  induction s generalizing l with
  | nil =>
    rw [List.splitOn_nil, List.mem_singleton] at h
    exact h ▸ List.not_mem_nil
  | cons c s ih =>
    rw [List.splitOn_cons_eq_if_modifyHead] at h
    split at h
    · rcases List.mem_cons.mp h with rfl | h
      · exact List.not_mem_nil
      · exact ih h
    · next hc =>
      cases hpieces : s.splitOn sep with
      | nil => exact absurd hpieces (List.splitOn_ne_nil _ _)
      | cons piece pieces =>
        rw [hpieces] at h ih
        rcases List.mem_cons.mp h with rfl | h
        · rw [List.mem_cons, not_or]
          exact ⟨fun hn => hc (beq_iff_eq.mpr hn.symm), ih List.mem_cons_self⟩
        · exact ih (List.mem_cons_of_mem _ h)

theorem chopReturn_sublist (l : List Char) : (chopReturn l).Sublist l := by
  unfold chopReturn
  split
  · exact List.dropLast_sublist l
  · exact List.Sublist.refl l

/-- The lines of a text are its pieces between newlines, up to a carriage return at the end. -/
theorem exists_piece_of_mem_lines {s l : List Char} (h : l ∈ lines s) :
    ∃ piece ∈ s.splitOn '\n', l = piece ∨ l = chopReturn piece := by
  rcases List.mem_append.mp h with h | h
  · obtain ⟨piece, hpiece, rfl⟩ := List.mem_map.mp h
    exact ⟨piece, List.dropLast_subset _ hpiece, .inr rfl⟩
  · exact ⟨l, List.mem_of_mem_drop (List.mem_filter.mp h).1, .inl rfl⟩

theorem mem_lines_of_piece {s piece : List Char} (h : piece ∈ s.splitOn '\n') (hne : piece ≠ []) :
    piece ∈ lines s ∨ chopReturn piece ∈ lines s := by
  obtain ⟨first, last, hsplit⟩ := (List.eq_nil_or_concat (s.splitOn '\n')).resolve_left
    (List.splitOn_ne_nil _ _)
  rw [lines, hsplit]
  rw [hsplit, List.concat_eq_append, List.mem_append, List.mem_singleton] at h
  rcases h with h | rfl
  · exact .inr (List.mem_append_left _ (by simpa using ⟨piece, h, rfl⟩))
  · exact .inl (List.mem_append_right _ (by simp [hne]))

theorem not_mem_of_mem_lines {s l : List Char} (h : l ∈ lines s) : '\n' ∉ l := by
  obtain ⟨piece, hpiece, rfl | rfl⟩ := exists_piece_of_mem_lines h
  · exact not_mem_of_mem_splitOn hpiece
  · exact fun hl => not_mem_of_mem_splitOn hpiece ((chopReturn_sublist _).subset hl)

/-- A text without a newline is one line, unless it is empty. -/
theorem lines_eq_singleton {s : List Char} (h : '\n' ∉ s) (hne : s ≠ []) : lines s = [s] := by
  simp [lines, List.splitOn_eq_singleton h, hne]

/-- Whether a row begins with a mark behind its tabs. -/
def opens (mark : String) (row : List Char) : Bool :=
  mark.toList.isPrefixOf (row.dropWhile (· == '\t'))

theorem opens_tabs (mark : String) (n : Nat) (l : List Char) :
    opens mark (List.replicate n '\t' ++ l) = opens mark l := by
  rw [opens, opens, List.dropWhile_append_of_pos]
  intro c hc
  rw [List.eq_of_mem_replicate hc]
  rfl

/-- A carriage return that may be cut off is no part of a mark. -/
theorem opens_chopReturn (mark : String) {c : Char} (hlast : mark.toList.getLast? = some c)
    (hc : c ≠ '\r') (l : List Char) : opens mark (chopReturn l) = opens mark l := by
  unfold chopReturn
  split
  · next hreturn =>
    obtain ⟨body, rfl⟩ : ∃ body, l = body ++ ['\r'] :=
      ⟨l.dropLast, (List.dropLast_append_getLast? '\r' hreturn).symm⟩
    rw [List.dropLast_concat, opens, opens, List.dropWhile_append]
    split
    · next hempty =>
      have hshort : mark.toList ≠ [] ∧ ¬mark.toList <+: ['\r'] := by
        refine ⟨fun hnil => by simp [hnil] at hlast, fun hprefix => ?_⟩
        have hmem := hprefix.subset (List.mem_of_getLast? hlast)
        exact hc (List.mem_singleton.mp hmem)
      rw [List.isEmpty_iff.mp hempty, Bool.eq_iff_iff, List.isPrefixOf_iff_prefix,
        List.isPrefixOf_iff_prefix, List.prefix_nil]
      exact iff_of_false hshort.1 hshort.2
    · rw [Bool.eq_iff_iff, List.isPrefixOf_iff_prefix, List.isPrefixOf_iff_prefix,
        List.prefix_concat_iff]
      refine ⟨.inr, Or.rec (fun h => ?_) id⟩
      rw [h, List.getLast?_concat] at hlast
      exact absurd (Option.some.inj hlast).symm hc
  · rfl

end Text

namespace Layout

open Goward.Text

/-! ### What is laid out -/

/-- Lines as they stand at a level. -/
def laid (level : Nat) (ls : List (List Char)) : List (List Char) :=
  (ls.filter (!·.all isBlank)).map (List.replicate level '\t' ++ ·)

theorem indented_eq (level : Nat) (s : List Char) :
    indented level s = unlines (laid level (lines s)) := by
  rw [indented, laid, unlines, List.flatMap_map]

theorem not_mem_of_mem_laid {level : Nat} {s row : List Char} (h : row ∈ laid level (lines s)) :
    '\n' ∉ row := by
  obtain ⟨l, hl, rfl⟩ := List.mem_map.mp h
  have hline := not_mem_of_mem_lines (List.mem_of_mem_filter hl)
  simp [hline]

/-- A text on one line is written on one row, unless it is blank. -/
theorem laid_line {l : List Char} {c : Char} (h : '\n' ∉ l) (hc : c ∈ l) (hblank : isBlank c = false)
    (level : Nat) : laid level (lines l) = [List.replicate level '\t' ++ l] := by
  have hkept : l.all isBlank = false := by
    rw [Bool.eq_false_iff, ne_eq, List.all_eq_true]
    exact fun hall => absurd (hall c hc) (by rw [hblank]; decide)
  simp [lines_eq_singleton h (List.ne_nil_of_mem hc), laid, hkept]

mutual

/-- The rows that an operation writes at a level, and the level after it. -/
def Op.rows : Op → Nat → List (List Char) × Nat
  | .put f, n => (laid (f.level n) (lines f.text.toList), n)
  | .indent k, n => ([], n + k)
  | .dedent k, n => ([], n - k)
  | .within shift ops, n => ((rowsAll ops (n + shift).toNat).1, n)

/-- The rows of operations one after another, and the level after them. -/
def Op.rowsAll : List Op → Nat → List (List Char) × Nat
  | [], n => ([], n)
  | op :: ops, n => ((op.rows n).1 ++ (rowsAll ops (op.rows n).2).1, (rowsAll ops (op.rows n).2).2)

end

mutual

theorem Op.not_mem_rows : (op : Op) → (n : Nat) → ∀ row ∈ (op.rows n).1, '\n' ∉ row
  | .put _, _ => fun _ h => not_mem_of_mem_laid h
  | .indent _, _ | .dedent _, _ => fun _ h => absurd h List.not_mem_nil
  | .within _ ops, _ => Op.not_mem_rowsAll ops _

theorem Op.not_mem_rowsAll : (ops : List Op) → (n : Nat) → ∀ row ∈ (rowsAll ops n).1, '\n' ∉ row
  | [], _ => fun _ h => absurd h List.not_mem_nil
  | op :: ops, n => fun row h => (List.mem_append.mp h).elim (Op.not_mem_rows op n row)
    (Op.not_mem_rowsAll ops _ row)

end

mutual

theorem Writer.run_eq_rows : (op : Op) → (w : Writer) → Writer.run op w =
    { text := w.text ++ String.ofList (unlines (op.rows w.level).1), level := (op.rows w.level).2 }
  | .put f, w => by
    rw [Writer.run, Writer.writeAt, indented_eq, Op.rows]
  | .indent k, w | .dedent k, w => by
    simp [Writer.run, Op.rows]
  | .within shift ops, w => by
    rw [Writer.run, Writer.runAll_eq_rows ops, Op.rows]

/-- What operations write are their rows. -/
theorem Writer.runAll_eq_rows : (ops : List Op) → (w : Writer) → Writer.runAll ops w =
    { text := w.text ++ String.ofList (unlines (Op.rowsAll ops w.level).1),
      level := (Op.rowsAll ops w.level).2 }
  | [], w => by
    simp [Writer.runAll, Op.rowsAll]
  | op :: ops, w => by
    rw [Writer.runAll, Writer.run_eq_rows op w, Writer.runAll_eq_rows ops, Op.rowsAll,
      unlines_append, String.ofList_append, String.append_assoc]

end

theorem render_eq_rows (n : Nat) (ops : List Op) :
    render n ops = String.ofList (unlines (Op.rowsAll ops n).1) := by
  rw [render, Writer.runAll_eq_rows]
  exact String.empty_append

/-- The lines of what operations have written. -/
theorem lines_render (n : Nat) (ops : List Op) :
    lines (render n ops).toList = (Op.rowsAll ops n).1.map chopReturn := by
  rw [render_eq_rows, String.toList_ofList, lines_unlines (Op.not_mem_rowsAll ops n)]

theorem Op.rowsAll_append (a b : List Op) (n : Nat) : rowsAll (a ++ b) n =
    ((rowsAll a n).1 ++ (rowsAll b (rowsAll a n).2).1, (rowsAll b (rowsAll a n).2).2) := by
  induction a generalizing n with
  | nil => rfl
  | cons op rest ih => simp only [List.cons_append, rowsAll, ih, List.append_assoc]

/-- A property by which a row is recognized when it has been moved to the right or has lost a carriage
return at its end. No blank row has it. -/
structure Lasting (R : List Char → Prop) : Prop where
  chopReturn : ∀ {l}, R l → R (chopReturn l)
  tabs : ∀ {l}, R l → ∀ n, R (List.replicate n '\t' ++ l)
  not_blank : ∀ {l}, R l → (!l.all isBlank) = true

/-- Some row that operations write has a property, wherever they start. -/
def WritesRow (R : List Char → Prop) (ops : List Op) : Prop :=
  ∀ n, ∃ row ∈ (Op.rowsAll ops n).1, R row

namespace WritesRow

variable {R : List Char → Prop} {a b ops : List Op}

theorem left (h : WritesRow R a) (b : List Op) : WritesRow R (a ++ b) := by
  intro n
  obtain ⟨row, hmem, hrow⟩ := h n
  rw [Op.rowsAll_append]
  exact ⟨row, List.mem_append_left _ hmem, hrow⟩

theorem right (h : WritesRow R b) (a : List Op) : WritesRow R (a ++ b) := by
  intro n
  obtain ⟨row, hmem, hrow⟩ := h (Op.rowsAll a n).2
  rw [Op.rowsAll_append]
  exact ⟨row, List.mem_append_right _ hmem, hrow⟩

theorem within (shift : Int) (h : WritesRow R ops) : WritesRow R [.within shift ops] := by
  intro n
  obtain ⟨row, hmem, hrow⟩ := h (n + shift).toNat
  rw [Op.rowsAll, Op.rowsAll, List.append_nil, Op.rows]
  exact ⟨row, hmem, hrow⟩

theorem of_line (hR : Lasting R) {f : Fragment} {l : List Char} (hl : l ∈ lines f.text.toList)
    (h : R l) : WritesRow R [.put f] := by
  intro n
  rw [Op.rowsAll, Op.rowsAll, List.append_nil, Op.rows]
  exact ⟨_, List.mem_map_of_mem (List.mem_filter.mpr ⟨hl, hR.not_blank h⟩), hR.tabs h _⟩

theorem of_piece (hR : Lasting R) {f : Fragment} {piece : List Char}
    (hpiece : piece ∈ f.text.toList.splitOn '\n') (h : R piece) : WritesRow R [.put f] := by
  have hne : piece ≠ [] := by
    rintro rfl
    exact absurd (hR.not_blank h) (by simp)
  rcases mem_lines_of_piece hpiece hne with hl | hl
  · exact of_line hR hl h
  · exact of_line hR hl (hR.chopReturn h)

/-- The text of operations, written into another text. -/
theorem rendered (hR : Lasting R) (k : Nat) (h : WritesRow R ops) :
    WritesRow R [.raw (render k ops)] := by
  obtain ⟨row, hmem, hrow⟩ := h k
  have hl : Text.chopReturn row ∈ lines (render k ops).toList := by
    rw [lines_render]
    exact List.mem_map_of_mem hmem
  exact of_line hR hl (hR.chopReturn hrow)

theorem resumable (hR : Lasting R) (checkpoints : List Nat) (h : WritesRow R ops) :
    WritesRow R (resumable checkpoints ops) := by
  have hdispatch : WritesRow R (Op.dispatch checkpoints (render 1 ops)) :=
    (within 1 (((within (-1) (h.rendered hR 1)).right [_, _]).right _)).right [_] |>.left [_]
  exact (hdispatch.right _).left _

theorem functionBody (header : Code.FunctionHeader) (temps : List Temp) {run : String}
    (h : WritesRow R [.raw run]) : WritesRow R (functionBody header temps run) := by
  refine right ?_ _
  split
  · exact ((within 1 h).right [_]).left [_]
  · exact h

end WritesRow

end Layout

end Goward
