import Goward.Proofs.Rows

/-!
# Writing what was written

Text that a writer has produced is written into another one, and that into a third one. What a writer
produces has no blank row, so nothing of it is left out when it is written again, and the levels add
up. Only carriage returns do not survive: one at the end of a line belongs to the line ending as soon
as a newline stands behind it.
-/

namespace Goward

namespace Text

/-- The last character of a line is not a carriage return. -/
def EndsClean (l : List Char) : Prop := l.getLast? ≠ some '\r'

instance : DecidablePred EndsClean := fun l => inferInstanceAs (Decidable (l.getLast? ≠ some '\r'))

variable {l : List Char} {ls ms : List (List Char)}

/-- What is cut off a line is a carriage return at its end. -/
theorem chopReturn_eq_self_iff : chopReturn l = l ↔ EndsClean l := by
  unfold chopReturn EndsClean
  split
  · next hreturn =>
    refine iff_of_false (fun heq => ?_) (absurd hreturn)
    have hlength := congrArg List.length heq
    rw [List.length_dropLast] at hlength
    have hpos := List.length_pos_of_mem (List.mem_of_getLast? hreturn)
    omega
  · next hclean => exact iff_of_true rfl hclean

/-- A carriage return is blank, so a line is blank with it if and only if it is without it. -/
theorem all_isBlank_chopReturn (l : List Char) : (chopReturn l).all isBlank = l.all isBlank := by
  unfold chopReturn
  split
  · next hreturn =>
    obtain ⟨body, rfl⟩ : ∃ body, l = body ++ ['\r'] :=
      ⟨l.dropLast, (List.dropLast_append_getLast? '\r' hreturn).symm⟩
    rw [List.dropLast_concat, List.all_append]
    exact (Bool.and_true _).symm
  · rfl

theorem endsClean_append {a b : List Char} (hb : b ≠ []) : EndsClean (a ++ b) ↔ EndsClean b := by
  rw [EndsClean, EndsClean, List.getLast?_append_of_ne_nil _ hb]

theorem unlines_inj (hls : ∀ l ∈ ls, '\n' ∉ l) (hms : ∀ l ∈ ms, '\n' ∉ l) :
    unlines ls = unlines ms ↔ ls = ms := by
  refine ⟨fun heq => ?_, congrArg unlines⟩
  have hpieces := congrArg (List.splitOn '\n') heq
  rw [splitOn_unlines hls, splitOn_unlines hms] at hpieces
  exact List.append_cancel_right hpieces

end Text

namespace Layout

open Goward.Text

variable {l row : List Char} {ls : List (List Char)} {m n : Nat}

/-- Lines of which none is blank. -/
def Visible (ls : List (List Char)) : Prop := ∀ l ∈ ls, l.all isBlank = false

theorem all_isBlank_tabs (n : Nat) (l : List Char) :
    (List.replicate n '\t' ++ l).all isBlank = l.all isBlank := by
  have htabs : (List.replicate n '\t').all isBlank = true :=
    List.all_eq_true.mpr fun c hc => List.eq_of_mem_replicate hc ▸ rfl
  rw [List.all_append, htabs, Bool.true_and]

theorem visible_laid (n : Nat) (ls : List (List Char)) : Visible (laid n ls) := by
  intro row hrow
  obtain ⟨l, hl, rfl⟩ := List.mem_map.mp hrow
  rw [all_isBlank_tabs]
  simpa using (List.mem_filter.mp hl).2

/-- Lines that are not blank are all kept. -/
theorem laid_of_visible (h : Visible ls) (n : Nat) :
    laid n ls = ls.map (List.replicate n '\t' ++ ·) := by
  have hkept : ls.filter (!·.all isBlank) = ls :=
    List.filter_eq_self.mpr fun l hl => by rw [h l hl]; rfl
  rw [laid, hkept]

theorem laid_laid (n m : Nat) (ls : List (List Char)) : laid n (laid m ls) = laid (n + m) ls := by
  rw [laid_of_visible (visible_laid m ls), laid, laid, List.map_map]
  refine List.map_congr_left fun l _ => ?_
  rw [Function.comp_apply, ← List.append_assoc, List.replicate_append_replicate]

theorem Visible.map_chopReturn (h : Visible ls) : Visible (ls.map chopReturn) := by
  intro row hrow
  obtain ⟨l, hl, rfl⟩ := List.mem_map.mp hrow
  rw [all_isBlank_chopReturn]
  exact h l hl

mutual

theorem Op.visible_rows : (op : Op) → (n : Nat) → Visible (op.rows n).1
  | .put _, _ => visible_laid _ _
  | .indent _, _ | .dedent _, _ => fun _ h => absurd h List.not_mem_nil
  | .within _ ops, _ => Op.visible_rowsAll ops _

/-- No row that operations write is blank. -/
theorem Op.visible_rowsAll : (ops : List Op) → (n : Nat) → Visible (rowsAll ops n).1
  | [], _ => fun _ h => absurd h List.not_mem_nil
  | op :: ops, n => List.forall_mem_append.mpr ⟨Op.visible_rows op n, Op.visible_rowsAll ops _⟩

end

/-- What operations have written has lines that are not blank. -/
theorem visible_lines_render (n : Nat) (ops : List Op) : Visible (lines (render n ops).toList) := by
  rw [lines_render]
  exact (Op.visible_rowsAll ops n).map_chopReturn

theorem rowsAll_raw (n : Nat) (s : String) : (Op.rowsAll [.raw s] n).1 = laid n (lines s.toList) :=
  List.append_nil _

theorem render_raw_eq (n : Nat) (s : String) :
    render n [.raw s] = String.ofList (unlines (laid n (lines s.toList))) := by
  rw [render_eq_rows, rowsAll_raw]

/-! ### Levels -/

theorem laid_inj {ms : List (List Char)} (hls : Visible ls) (hms : Visible ms) :
    laid n ls = laid n ms ↔ ls = ms := by
  rw [laid_of_visible hls, laid_of_visible hms]
  exact (List.map_injective_iff.mpr (List.append_right_injective _)).eq_iff

theorem endsClean_laid (n : Nat) (ls : List (List Char)) :
    (∀ row ∈ laid n ls, EndsClean row) ↔ ∀ l ∈ ls, l.all isBlank = false → EndsClean l := by
  have hrow {l : List Char} (hl : l.all isBlank = false) :
      EndsClean (List.replicate n '\t' ++ l) ↔ EndsClean l :=
    endsClean_append fun hnil => by simp [hnil] at hl
  rw [laid, List.forall_mem_map]
  constructor
  · intro h l hl hvisible
    exact (hrow hvisible).mp (h l (List.mem_filter.mpr ⟨hl, by rw [hvisible]; rfl⟩))
  · intro h l hl
    obtain ⟨hl, hvisible⟩ := List.mem_filter.mp hl
    rw [Bool.not_eq_true'] at hvisible
    exact (hrow hvisible).mpr (h l hl hvisible)

theorem map_chopReturn_eq_self_iff : ls.map chopReturn = ls ↔ ∀ l ∈ ls, EndsClean l := by
  have hid : ls.map id = ls := List.map_id ls
  calc ls.map chopReturn = ls
    _ ↔ ls.map chopReturn = ls.map id := by rw [hid]
    _ ↔ ∀ l ∈ ls, chopReturn l = l := List.map_eq_map_iff
    _ ↔ ∀ l ∈ ls, EndsClean l := forall₂_congr fun _ _ => chopReturn_eq_self_iff

/-- A text that was written at one level is written at another one: it stands where the sum of both
levels puts it, exactly if no line of it that is kept ends in a carriage return. -/
theorem render_render_iff (t : String) (m n : Nat) :
    render n [.raw (render m [.raw t])] = render (n + m) [.raw t] ↔
      ∀ l ∈ lines t.toList, l.all isBlank = false → EndsClean l := by
  have hvisible := visible_laid m (lines t.toList)
  have hwritten : lines (render m [.raw t]).toList = (laid m (lines t.toList)).map chopReturn := by
    rw [lines_render, rowsAll_raw]
  calc render n [.raw (render m [.raw t])] = render (n + m) [.raw t]
    _ ↔ laid n (lines (render m [.raw t]).toList) = laid (n + m) (lines t.toList) := by
      rw [render_raw_eq n, render_raw_eq (n + m), String.ofList_inj,
        unlines_inj (fun _ => not_mem_of_mem_laid) fun _ => not_mem_of_mem_laid]
    _ ↔ (laid m (lines t.toList)).map chopReturn = laid m (lines t.toList) := by
      rw [hwritten, ← laid_laid, laid_inj hvisible.map_chopReturn hvisible]
    _ ↔ ∀ l ∈ lines t.toList, l.all isBlank = false → EndsClean l := by
      rw [map_chopReturn_eq_self_iff, endsClean_laid]

/-- A place among the operations of a writer. -/
inductive Gap
  | here
  | among (before : List Op) (place : Gap) (after : List Op)
  | within (shift : Int) (place : Gap)

namespace Gap

/-- The operations of the writer, with some more at the place. -/
def fill : Gap → List Op → List Op
  | here, ops => ops
  | among before place after, ops => before ++ place.fill ops ++ after
  | within shift place, ops => [.within shift (place.fill ops)]

/-- The level at the place, if the writer starts at the given one. -/
def levelAt : Gap → Nat → Nat
  | here, n => n
  | among before place _, n => place.levelAt (Op.rowsAll before n).2
  | within shift place, n => place.levelAt (n + shift).toNat

/-- The rows of the operations at a place stand among those of the writer. -/
theorem rows_fill (c : Gap) (ops : List Op) (n : Nat) :
    (Op.rowsAll ops (c.levelAt n)).1 <:+: (Op.rowsAll (c.fill ops) n).1 := by
  induction c generalizing n with
  | here => exact List.infix_rfl
  | among before place after ih =>
    rw [fill, Op.rowsAll_append, Op.rowsAll_append]
    exact (ih _).trans ⟨_, _, rfl⟩
  | within shift place ih =>
    rw [fill, Op.rowsAll, Op.rowsAll, Op.rows, List.append_nil]
    exact ih _

end Gap

/-- A text that is written at a place in a new writer, what comes of that at a place in another new
writer, and so on. -/
def enclosed (cs : List Gap) (t : String) : String :=
  cs.foldl (fun t c => render 0 (c.fill [.raw t])) t

/-- The levels that the places in new writers add up to. -/
def depth : List Gap → Nat
  | [] => 0
  | c :: cs => c.levelAt 0 + depth cs

/-- Lines of a text that is written at a place in a new writer are found in what comes of it. -/
theorem infix_filled {t : String} (hclean : ∀ l ∈ ls, EndsClean l) (h : ls <:+: lines t.toList)
    (c : Gap) :
    laid (c.levelAt 0) ls <:+: lines (render 0 (c.fill [.raw t])).toList := by
  have hkept : (laid (c.levelAt 0) ls).map chopReturn = laid (c.levelAt 0) ls :=
    map_chopReturn_eq_self_iff.mpr ((endsClean_laid _ _).mpr fun l hl _ => hclean l hl)
  have hrows : laid (c.levelAt 0) ls <:+: laid (c.levelAt 0) (lines t.toList) :=
    (h.filter _).map _
  rw [← rowsAll_raw] at hrows
  rw [← hkept, lines_render]
  exact (hrows.trans (c.rows_fill _ 0)).map _

/-- They are found behind any number of writers. -/
theorem infix_enclosed {t : String} (hvisible : Visible ls) (hclean : ∀ l ∈ ls, EndsClean l)
    (h : ls <:+: lines t.toList) (cs : List Gap) :
    laid (depth cs) ls <:+: lines (enclosed cs t).toList := by
  induction cs generalizing t ls with
  | nil =>
    rw [laid_of_visible hvisible]
    simpa [enclosed, depth] using h
  | cons c cs ih =>
    have hnext := ih (visible_laid (c.levelAt 0) ls)
      ((endsClean_laid _ _).mpr fun l hl _ => hclean l hl) (infix_filled hclean h c)
    rw [laid_laid, Nat.add_comm] at hnext
    exact hnext

/-- Writers nest without damage. What operations write are lines that end in newlines, and none of
them is blank. A text that is written at one level and then at another one stands where the sum of
the levels puts it, exactly if no line of it that is kept ends in a carriage return. So the lines of
a body without such lines, which is written by itself and then in any number of writers around it,
are all kept in their order, with tabs in front of them. -/
theorem writers_nest :
    (∀ ops, ∃ rows, (Writer.runAll ops {}).text = String.ofList (unlines rows) ∧
      ∀ row ∈ rows, '\n' ∉ row ∧ row.all isBlank = false) ∧
    (∀ t m n, render n [.raw (render m [.raw t])] = render (n + m) [.raw t] ↔
      ∀ l ∈ lines t.toList, l.all isBlank = false → EndsClean l) ∧
    ∀ m ops cs, (∀ l ∈ lines (render m ops).toList, EndsClean l) →
      (lines (render m ops).toList).map (List.replicate (depth cs) '\t' ++ ·) <:+:
        lines (enclosed cs (render m ops)).toList := by
  refine ⟨fun ops => ⟨(Op.rowsAll ops 0).1, render_eq_rows 0 ops, fun row hrow => ?_⟩,
    render_render_iff, fun m ops cs hclean => ?_⟩
  · exact ⟨Op.not_mem_rowsAll ops 0 row hrow, Op.visible_rowsAll ops 0 row hrow⟩
  · have hvisible := visible_lines_render m ops
    rw [← laid_of_visible hvisible]
    exact infix_enclosed hvisible hclean List.infix_rfl cs

theorem writers_nest_dispatch :
    let body := render 1 [.raw "a\n\n \r\nb", .put (.label 2)]
    let c : Gap := .among [.raw "for \x7b"]
      (.within 1 (.among [.raw "case 0:", .raw "case 2: goto Label2"] (.within (-1) .here) []))
      [.raw "\x7d"]
    let d : Gap := .among [.raw "f(func() \x7b"] (.within 1 .here) [.raw "\x7d)"]
    (∀ l ∈ lines body.toList, EndsClean l) ∧
      (lines body.toList).map (List.replicate 1 '\t' ++ ·) <:+:
        lines (enclosed [c, d] body).toList := by
  intro body c d
  have hclean : ∀ l ∈ lines body.toList, EndsClean l := by decide
  exact ⟨hclean, writers_nest.2.2 1 _ [c, d] hclean⟩

end Layout

end Goward
