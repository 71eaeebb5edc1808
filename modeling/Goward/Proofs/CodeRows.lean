import Goward.Proofs.CommentRows
import Goward.Proofs.ExpressionTexts

/-!
# Rows of code

What the rows of generated code look like. None of them begins like the declaration of a shared
string, since every line that an instruction writes begins with a fixed text of its own or with the
name of a variable; and moving the text of a body into that around it changes nothing in this.
-/

namespace Goward

open Goward.Code Goward.Text

namespace Text

/-- A text begins with a character. -/
def Begins (c : Char) (s : String) : Prop := s.toList.head? = some c

instance (c : Char) : DecidablePred (Begins c) :=
  fun s => inferInstanceAs (Decidable (s.toList.head? = some c))

theorem Begins.literal {c : Char} {l : List Char} : Begins c (String.ofList (c :: l)) := by
  rw [Begins, String.toList_ofList, List.head?_cons]

theorem Begins.append {c : Char} {a : String} (h : Begins c a) (b : String) :
    Begins c (a ++ b) := by
  rw [Begins, String.toList_append, List.head?_append, h]
  rfl

/-- Whether a row is the beginning of the declaration of a shared string. -/
def declaresString (row : List Char) : Bool := opens "var ß" row

/-- The mark given by its characters, which spares decoding it for every row. -/
theorem declaresString_eq (row : List Char) : declaresString row =
    ['v', 'a', 'r', ' ', 'ß'].isPrefixOf (row.dropWhile (· == '\t')) := by
  have hmark : "var ß" = String.ofList ['v', 'a', 'r', ' ', 'ß'] := rfl
  rw [declaresString, opens, hmark, String.toList_ofList]

theorem not_declaresString {c : Char} {s : String} (h : Begins c s)
    (hc : (c == '\t' || 'v' == c) = false) : declaresString s.toList = false := by
  obtain ⟨rest, hs⟩ := List.head?_eq_some_iff.mp h
  obtain ⟨htab, hmark⟩ := Bool.or_eq_false_iff.mp hc
  simp [declaresString_eq, hs, htab, List.isPrefixOf, hmark]

theorem not_declaresString_var {c : Char} {s : String} (h : Begins c s)
    (hc : ('ß' == c) = false) : declaresString ("var " ++ s).toList = false := by
  obtain ⟨rest, hs⟩ := List.head?_eq_some_iff.mp h
  simp [declaresString_eq, String.toList_append, hs, List.isPrefixOf, hc]

end Text

theorem Temp.Scratch.begins {t : Temp} (h : t.Scratch) : Begins 'π' t.name := by
  obtain ⟨-, n, hname⟩ := h
  rw [hname]
  exact .append .literal _

namespace Layout

/-- No line of a text is the declaration of a shared string. -/
def Undeclaring (s : String) : Prop :=
  ∀ piece ∈ s.toList.splitOn '\n', declaresString piece = false

/-- No row that operations write is the declaration of a shared string. -/
def Avoids (ops : List Op) : Prop :=
  ∀ n, ∀ row ∈ (Op.rowsAll ops n).1, declaresString row = false

theorem declaresString_chopReturn (l : List Char) :
    declaresString (chopReturn l) = declaresString l :=
  opens_chopReturn "var ß" rfl (by decide) l

/-- A literal, decided on its characters. -/
theorem Undeclaring.literal {l : List Char} (h : (l.splitOn '\n').any (fun piece =>
    ['v', 'a', 'r', ' ', 'ß'].isPrefixOf (piece.dropWhile (· == '\t'))) = false) :
    Undeclaring (String.ofList l) := by
  intro piece hpiece
  rw [String.toList_ofList] at hpiece
  rw [declaresString_eq, Bool.eq_false_iff]
  exact List.any_eq_false.mp h piece hpiece

theorem Undeclaring.line {s : String} (h : OneLine s) (hs : declaresString s.toList = false) :
    Undeclaring s := by
  intro piece hpiece
  rw [List.splitOn_eq_singleton h] at hpiece
  exact List.mem_singleton.mp hpiece ▸ hs

/-- Lines with others behind them. -/
theorem Undeclaring.append {s t : String} (hs : Undeclaring s) (ht : Undeclaring t) :
    Undeclaring (s ++ "\n" ++ t) := by
  intro piece hpiece
  have htext : (s ++ "\n" ++ t).toList = s.toList ++ '\n' :: t.toList := by
    simp [String.toList_append]
  rw [htext, List.splitOn_append_cons_self] at hpiece
  exact (List.mem_append.mp hpiece).elim (hs piece) (ht piece)

theorem Undeclaring.lines {s : String} (h : Undeclaring s) :
    ∀ l ∈ lines s.toList, declaresString l = false := by
  intro l hl
  obtain ⟨piece, hpiece, rfl | rfl⟩ := exists_piece_of_mem_lines hl
  · exact h _ hpiece
  · exact (declaresString_chopReturn piece).trans (h piece hpiece)

namespace Avoids

variable {a b ops : List Op}

theorem nil : Avoids [] := nofun

theorem append (ha : Avoids a) (hb : Avoids b) : Avoids (a ++ b) := by
  intro n row hrow
  rw [Op.rowsAll_append] at hrow
  exact (List.mem_append.mp hrow).elim (ha n row) (hb _ row)

theorem cons {op : Op} (h : Avoids [op]) (hops : Avoids ops) : Avoids (op :: ops) := h.append hops

theorem flatMap {α : Type} {f : α → List Op} {xs : List α} (h : ∀ x ∈ xs, Avoids (f x)) :
    Avoids (xs.flatMap f) := by
  induction xs with
  | nil => exact nil
  | cons x rest ih =>
    rw [List.flatMap_cons]
    exact (h x List.mem_cons_self).append (ih fun y hy => h y (List.mem_cons_of_mem _ hy))

theorem map {α : Type} {f : α → Op} {xs : List α} (h : ∀ x ∈ xs, Avoids [f x]) :
    Avoids (xs.map f) := by
  rw [List.map_eq_flatMap]
  exact flatMap h

theorem within (shift : Int) (h : Avoids ops) : Avoids [.within shift ops] := by
  intro n row hrow
  rw [Op.rowsAll, Op.rowsAll, List.append_nil] at hrow
  exact h _ row hrow

theorem put {f : Fragment} (h : Undeclaring f.text) : Avoids [.put f] := by
  intro n row hrow
  rw [Op.rowsAll, Op.rowsAll, List.append_nil, Op.rows] at hrow
  obtain ⟨l, hl, rfl⟩ := List.mem_map.mp hrow
  exact (opens_tabs "var ß" _ l).trans (h.lines l (List.mem_of_mem_filter hl))

theorem line {s : String} (h : OneLine s) (hs : declaresString s.toList = false) :
    Avoids [.raw s] := put (.line h hs)

/-- The text of operations, written into another text. -/
theorem rendered (k : Nat) (h : Avoids ops) : Avoids [.raw (render k ops)] := by
  intro n row hrow
  rw [Op.rowsAll, Op.rowsAll, List.append_nil, Op.raw, Op.rows] at hrow
  obtain ⟨l, hl, rfl⟩ := List.mem_map.mp hrow
  have hl : l ∈ lines (render k ops).toList := List.mem_of_mem_filter hl
  rw [lines_render] at hl
  obtain ⟨inner, hinner, rfl⟩ := List.mem_map.mp hl
  exact (opens_tabs "var ß" _ _).trans ((declaresString_chopReturn inner).trans (h k inner hinner))

end Avoids

namespace Avoids

/-- A fixed line, decided on its characters. -/
theorem fixed {l : List Char} (h : (l.contains '\n' ||
    ['v', 'a', 'r', ' ', 'ß'].isPrefixOf (l.dropWhile (· == '\t'))) = false) :
    Avoids [.raw (String.ofList l)] := by
  obtain ⟨hline, hmark⟩ := Bool.or_eq_false_iff.mp h
  refine line (.literal hline) ?_
  rw [String.toList_ofList, declaresString_eq]
  exact hmark

theorem dispatch (checkpoints : List Nat) {body : String} (h : Avoids [.raw body]) :
    Avoids (Op.dispatch checkpoints body) := by
  have hentries : Avoids (checkpoints.map fun (n : Nat) =>
      .raw ("case " ++ toString n ++ ": goto Label" ++ toString n)) := by
    refine map fun n _ => ?_
    refine line ?_ (not_declaresString (c := 'c') (.append (.append (.append .literal _) _) _) rfl)
    simp only [oneLine_append]
    exact ⟨⟨⟨.literal rfl, oneLine_toString n⟩, .literal rfl⟩, oneLine_toString n⟩
  refine cons (fixed rfl) (cons (within 1 ?_) (fixed rfl))
  refine append (append (cons (fixed rfl) (fixed rfl)) hentries) ?_
  exact cons (fixed rfl) (cons (fixed rfl) (within (-1) h))

theorem resumable (checkpoints : List Nat) {code : List Op} (h : Avoids code) :
    Avoids (resumable checkpoints code) :=
  append (append (cons (fixed rfl) (fixed rfl)) (dispatch checkpoints (h.rendered 1))) (fixed rfl)

theorem declarations {temps : List Temp} (h : ∀ t ∈ temps, t.Scratch) :
    Avoids (declarations temps) := by
  refine append (cons (fixed rfl) (fixed rfl)) (flatMap fun t ht => cons (line ?_ ?_) (line ?_ ?_))
  · simp only [Temp.declaration, oneLine_append]
    exact ⟨⟨⟨.literal rfl, (h t ht).oneLine.1⟩, .literal rfl⟩, (h t ht).oneLine.2⟩
  · simp only [Temp.declaration, String.append_assoc]
    exact not_declaresString_var (c := 'π') ((h t ht).begins.append _) rfl
  · exact oneLine_append.mpr ⟨.literal rfl, (h t ht).oneLine.1⟩
  · exact not_declaresString (c := '_') (.append .literal _) rfl

theorem slotDeclaration {x : String} (h : OneLine x) (init : SlotInit) :
    Avoids (slotDeclaration x init) := by
  have hinit : OneLine init.text := by
    cases init with
    | unbound => exact .literal rfl
    | argument index =>
      simp only [SlotInit.text, oneLine_append]
      exact ⟨⟨.literal rfl, oneLine_toString index⟩, .literal rfl⟩
  refine cons (line ?_ ?_) (line ?_ ?_)
  · simp only [oneLine_append]
    exact ⟨⟨⟨.literal rfl, oneLine_slotName h⟩, .literal rfl⟩, hinit⟩
  · simp only [String.append_assoc]
    exact not_declaresString_var (c := 'µ') (.append (.append .literal _) _) rfl
  · exact oneLine_append.mpr ⟨.literal rfl, oneLine_slotName h⟩
  · exact not_declaresString (c := '_') (.append .literal _) rfl

theorem functionBody {header : FunctionHeader} {temps : List Temp} {run : String}
    (hslots : ∀ s ∈ header.slots, OneLine s.1) (htemps : ∀ t ∈ temps, t.Scratch)
    (h : Avoids [.raw run]) : Avoids (functionBody header temps run) := by
  refine append (append (flatMap fun s hs => slotDeclaration (hslots s hs) s.2)
    ((declarations htemps).rendered 0)) ?_
  split
  · exact cons (fixed rfl) (cons (within 1 h) (fixed rfl))
  · exact h

end Avoids

/-! ### Fragments -/

theorem oneLine_jump (n : Nat) : OneLine (jump n) :=
  oneLine_append.mpr ⟨.literal rfl, oneLine_toString n⟩

/-- The first line of a call whose failure leaves the function. -/
def checkedLine (targets call : String) : String :=
  "if " ++ targets ++ " = " ++ call ++ "; πE != nil \x7b"

theorem checked_eq (targets call : String) :
    Fragment.checked targets call = checkedLine targets call ++ "\n" ++ "\tcontinue\n\x7d" := by
  have hend : "; πE != nil \x7b\n\tcontinue\n\x7d" =
      "; πE != nil \x7b" ++ "\n" ++ "\tcontinue\n\x7d" := by
    rw [← String.ofList_append, ← String.ofList_append]; rfl
  simp only [Fragment.checked, checkedLine, hend, String.append_assoc]

theorem oneLine_checkedLine {targets call : String} (ht : OneLine targets) (hc : OneLine call) :
    OneLine (checkedLine targets call) := by
  simp only [checkedLine, oneLine_append]
  exact ⟨⟨⟨⟨.literal rfl, ht⟩, .literal rfl⟩, hc⟩, .literal rfl⟩

namespace Undeclaring

theorem checked {targets call : String} (ht : OneLine targets) (hc : OneLine call) :
    Undeclaring (Fragment.checked targets call) := by
  rw [checked_eq]
  refine .append (.line (oneLine_checkedLine ht hc) ?_) (.literal rfl)
  refine not_declaresString (c := 'i') ?_ rfl
  exact .append (.append (.append (.append .literal _) _) _) _

/-- A jump at the end of a block. -/
theorem blockJump (n : Nat) : Undeclaring ("\t" ++ jump n ++ "\n" ++ "\x7d") := by
  refine .append (.line (oneLine_append.mpr ⟨.literal rfl, oneLine_jump n⟩) ?_) (.literal rfl)
  have htab : ("\t" ++ jump n).toList = List.replicate 1 '\t' ++ (jump n).toList := by
    simp [String.toList_append]
  rw [htab, declaresString, opens_tabs]
  exact not_declaresString (c := 'g') (.append .literal _) rfl

theorem next {item iterator : String} (hitem : OneLine item) (hiterator : OneLine iterator)
    (n : Nat) :
    Undeclaring ("if " ++ item ++ ", πE = πg.Next(πF, " ++ iterator ++ "); πE != nil \x7b\n" ++
      "\tif πE.Type() != πg.StopIterationType \x7b\n\t\tcontinue\n\t\x7d\n\tπE = nil\n" ++
      "\tπF.RestoreExc(nil, nil)\n\t" ++ jump n ++ "\n\x7d") := by
  have hopen : "); πE != nil \x7b\n" = "); πE != nil \x7b" ++ "\n" := by
    rw [← String.ofList_append]; rfl
  have hblock : "\tif πE.Type() != πg.StopIterationType \x7b\n\t\tcontinue\n\t\x7d\n\tπE = nil\n" =
      "\tif πE.Type() != πg.StopIterationType \x7b\n\t\tcontinue\n\t\x7d\n\tπE = nil" ++ "\n" := by
    rw [← String.ofList_append]; rfl
  have hrestore : "\tπF.RestoreExc(nil, nil)\n\t" =
      "\tπF.RestoreExc(nil, nil)" ++ "\n" ++ "\t" := by
    rw [← String.ofList_append, ← String.ofList_append]; rfl
  have hclose : "\n\x7d" = "\n" ++ "\x7d" := by
    rw [← String.ofList_append]; rfl
  have htext : "if " ++ item ++ ", πE = πg.Next(πF, " ++ iterator ++ "); πE != nil \x7b\n" ++
      "\tif πE.Type() != πg.StopIterationType \x7b\n\t\tcontinue\n\t\x7d\n\tπE = nil\n" ++
      "\tπF.RestoreExc(nil, nil)\n\t" ++ jump n ++ "\n\x7d" =
      ("if " ++ item ++ ", πE = πg.Next(πF, " ++ iterator ++ "); πE != nil \x7b") ++ "\n" ++
      ("\tif πE.Type() != πg.StopIterationType \x7b\n\t\tcontinue\n\t\x7d\n\tπE = nil" ++ "\n" ++
      ("\tπF.RestoreExc(nil, nil)" ++ "\n" ++ ("\t" ++ jump n ++ "\n" ++ "\x7d"))) := by
    rw [hopen, hblock, hrestore, hclose]
    simp only [String.append_assoc]
  rw [htext]
  refine .append (.line ?_ (not_declaresString (c := 'i') ?_ rfl)) ?_
  · simp only [oneLine_append]
    exact ⟨⟨⟨⟨.literal rfl, hitem⟩, .literal rfl⟩, hiterator⟩, .literal rfl⟩
  · exact .append (.append (.append (.append .literal _) _) _) _
  · exact .append (.literal rfl) (.append (.literal rfl) (blockJump n))

end Undeclaring

theorem oneLine_sourceLine (number : Nat) {line : String} (h : OneLine line) :
    OneLine (Fragment.sourceLine number line).text := by
  have htrim : OneLine (String.ofList (trim line.toList)) := by
    rw [OneLine, String.toList_ofList]
    exact fun hn => h (trim_subset _ hn)
  simp only [Fragment.sourceLine, Fragment.text, oneLine_append]
  exact ⟨⟨⟨.literal rfl, oneLine_toString number⟩, .literal rfl⟩, htrim⟩

section Instructions

variable {o : Options} {ids : List String} (ho : o.OneLine) (hids : ∀ x ∈ ids, OneLine x)

end Instructions

end Layout

end Goward
