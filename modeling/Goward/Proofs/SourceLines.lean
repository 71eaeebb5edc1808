import Goward.Lowering.Stmt
import Goward.Proofs.Rows

/-!
# Lines of the source

The line map of a text finds its lines, as long as their offsets fit in 32 bits: the starts are the
offsets of the pieces between the newlines, and every piece can be cut out again, since it ends between
two characters. In a longer text an offset starts over, and then a line that is cut out may be several
ones.
-/

namespace Goward

namespace Text

theorem bytes_append (a b : List Char) : bytes (a ++ b) = bytes a ++ bytes b :=
  List.flatMap_append

@[simp] theorem bytes_nil : bytes [] = [] := rfl

@[simp] theorem length_bytes_cons (c : Char) (s : List Char) :
    (bytes (c :: s)).length = c.utf8Size + (bytes s).length := by
  simp [bytes]

theorem dropBytes?_append (a b : List Char) : dropBytes? (bytes a).length (a ++ b) = some b := by
  induction a with
  | nil => rw [bytes_nil, List.length_nil, dropBytes?, List.nil_append]
  | cons c a ih =>
    have hsize := c.utf8Size_pos
    obtain ⟨n, hn⟩ : ∃ n, c.utf8Size + (bytes a).length = n + 1 :=
      Nat.exists_eq_add_one_of_ne_zero (by omega)
    have hle : c.utf8Size ≤ n + 1 := by omega
    have hrest : n + 1 - c.utf8Size = (bytes a).length := by omega
    rw [length_bytes_cons, hn, List.cons_append, dropBytes?, if_pos hle, hrest, ih]

theorem takeBytes?_append (a b : List Char) : takeBytes? (bytes a).length (a ++ b) = some a := by
  induction a with
  | nil => rw [bytes_nil, List.length_nil, takeBytes?]
  | cons c a ih =>
    have hsize := c.utf8Size_pos
    obtain ⟨n, hn⟩ : ∃ n, c.utf8Size + (bytes a).length = n + 1 :=
      Nat.exists_eq_add_one_of_ne_zero (by omega)
    have hle : c.utf8Size ≤ n + 1 := by omega
    have hrest : n + 1 - c.utf8Size = (bytes a).length := by omega
    rw [length_bytes_cons, hn, List.cons_append, takeBytes?, if_pos hle, hrest, ih, Option.map_some]

theorem slice?_append (a b c : List Char) :
    slice? (bytes a).length ((bytes a).length + (bytes b).length) (a ++ (b ++ c)) = some b := by
  rw [slice?, if_pos (Nat.le_add_right _ _), dropBytes?_append, Option.bind_some,
    Nat.add_sub_cancel_left, takeBytes?_append]

theorem dropEndWhile_concat {p : Char → Bool} {c : Char} (hc : p c = false) (s : List Char) :
    dropEndWhile p (s ++ [c]) = s ++ [c] := by
  have hkept : ¬p c = true := by rw [hc]; decide
  rw [dropEndWhile, List.reverse_append, List.reverse_singleton, List.singleton_append,
    List.dropWhile_cons_of_neg hkept, List.reverse_cons, List.reverse_reverse]

/-- A text from the pieces before a place and those behind it. -/
theorem intercalate_append (as : List (List Char)) {bs : List (List Char)} (h : bs ≠ []) :
    ['\n'].intercalate (as ++ bs) = unlines as ++ ['\n'].intercalate bs := by
  induction as with
  | nil => rfl
  | cons a rest ih =>
    have hne : rest ++ bs ≠ [] := List.append_ne_nil_of_right_ne_nil _ h
    obtain ⟨p, ps, hps⟩ := List.exists_cons_of_ne_nil hne
    rw [List.cons_append, unlines_cons, List.append_assoc, List.cons_append, ← ih, hps,
      List.intercalate_cons_cons]
    simp

end Text

namespace LineMap

open Goward.Text

/-- The offsets of pieces that are followed by a newline each. -/
def offsets : Nat → List (List Char) → List Nat
  | _, [] => []
  | pos, p :: ps => pos :: offsets (pos + (bytes p).length + 1) ps

theorem starts_eq_offsets (s : List Char) :
    ∀ pos, pos :: startsAfter pos s = offsets pos (s.splitOn '\n') := by
  induction s with
  | nil =>
    intro pos
    rw [startsAfter, List.splitOn_nil, offsets, offsets]
  | cons c s ih =>
    intro pos
    rw [startsAfter, List.splitOn_cons_eq_if_modifyHead]
    by_cases hc : c = '\n'
    · rw [if_pos hc, if_pos (beq_iff_eq.mpr hc), offsets, ih]
      rfl
    · rw [if_neg hc, if_neg (fun h => hc (beq_iff_eq.mp h))]
      have hrest := ih (pos + c.utf8Size)
      cases hpieces : s.splitOn '\n' with
      | nil => exact absurd hpieces (List.splitOn_ne_nil _ _)
      | cons p ps =>
        rw [hpieces, offsets] at hrest
        rw [List.modifyHead_cons, offsets, (List.cons_eq_cons.mp hrest).2, length_bytes_cons]
        congr 2
        omega

theorem getElem?_offsets (as : List (List Char)) (p : List Char) (ps : List (List Char)) :
    ∀ pos, (offsets pos (as ++ p :: ps))[as.length]? = some (pos + (bytes (unlines as)).length) := by
  induction as with
  | nil => exact fun pos => rfl
  | cons a rest ih =>
    intro pos
    rw [List.cons_append, offsets, List.length_cons, List.getElem?_cons_succ, ih, unlines_cons,
      bytes_append, List.length_append, length_bytes_cons]
    congr 1
    simp +arith [show ('\n' : Char).utf8Size = 1 from rfl]

theorem length_offsets (ps : List (List Char)) : ∀ pos, (offsets pos ps).length = ps.length := by
  induction ps with
  | nil => exact fun pos => rfl
  | cons p ps ih => exact fun pos => congrArg (· + 1) (ih _)

theorem lineStarts_eq (text : String) : lineStarts text = offsets 0 (text.toList.splitOn '\n') :=
  starts_eq_offsets _ 0

/-- Every line of a text starts at an offset that fits in 32 bits. -/
def Addressable (text : String) : Prop := ∀ start ∈ lineStarts text, start < UInt32.size

instance : DecidablePred Addressable := fun text =>
  inferInstanceAs (Decidable (∀ start ∈ lineStarts text, start < UInt32.size))

variable {text : String}

/-- The map of a text holds the starts of its lines as they are. -/
theorem Addressable.starts_ofText (h : Addressable text) : (ofText text).starts = lineStarts text := by
  have hmap : (lineStarts text).map (· % UInt32.size) = (lineStarts text).map id :=
    List.map_congr_left fun start hstart => Nat.mod_eq_of_lt (h start hstart)
  rw [ofText, hmap, List.map_id]

/-- The bytes from which a line is cut: from its start up to the newline behind it, or to the end of
the text. -/
def range? (m : LineMap) (text : String) (line : Nat) : Option (Nat × Nat) :=
  m.starts[line]?.map fun start =>
    (start, (m.starts[line + 1]?.map (· - 1)).getD (bytes text.toList).length)

theorem lineText_eq_slice (m : LineMap) (text : String) (line : Nat) :
    m.lineText text line = String.ofList (dropEndWhile (· = '\r')
      (((m.range? text line).bind fun r => slice? r.1 r.2 text.toList).getD [])) := by
  rw [lineText, range?]
  cases m.starts[line]? with
  | none => rfl
  | some start => cases m.starts[line + 1]? <;> rfl

/-- The bytes for a line are those of a piece between two newlines. -/
theorem Addressable.range?_ofText (hfits : Addressable text) {l : Nat} {p : List Char}
    (h : (text.toList.splitOn '\n')[l]? = some p) :
    ∃ before after, text.toList = before ++ (p ++ after) ∧ (ofText text).range? text l =
      some ((bytes before).length, (bytes before).length + (bytes p).length) := by
  have htext : ['\n'].intercalate (text.toList.splitOn '\n') = text.toList :=
    List.intercalate_splitOn '\n'
  rw [range?, hfits.starts_ofText, lineStarts_eq]
  generalize text.toList.splitOn '\n' = pieces at h htext
  obtain ⟨hl, rfl⟩ := List.getElem?_eq_some_iff.mp h
  have hsplit : pieces = pieces.take l ++ pieces[l] :: pieces.drop (l + 1) := by
    rw [← List.drop_eq_getElem_cons, List.take_append_drop]
  have hlen : (pieces.take l).length = l := List.length_take_of_le (Nat.le_of_lt hl)
  generalize pieces[l] = p at hsplit
  generalize pieces.take l = before at hsplit hlen
  generalize pieces.drop (l + 1) = behind at hsplit
  subst hsplit hlen
  rw [getElem?_offsets, Nat.zero_add, Option.map_some]
  rw [intercalate_append before (List.cons_ne_nil _ _)] at htext
  -- The range ends at the next newline, or at the end of the text.
  cases behind with
  | nil =>
    have hnone : (offsets 0 (before ++ [p]))[before.length + 1]? = none := by
      rw [List.getElem?_eq_none_iff, length_offsets]
      simp
    rw [List.intercalate_singleton] at htext
    refine ⟨unlines before, [], by rw [List.append_nil, htext], ?_⟩
    rw [hnone, ← htext, bytes_append, List.length_append]
    rfl
  | cons next rest =>
    have hnext := getElem?_offsets (before ++ [p]) next rest 0
    rw [List.append_assoc, List.singleton_append, List.length_append, List.length_singleton]
      at hnext
    rw [List.intercalate_cons_cons, List.append_assoc, List.singleton_append] at htext
    refine ⟨unlines before, _, htext.symm, ?_⟩
    rw [hnext, Option.map_some, Option.getD_some]
    simp [bytes_append, show ('\n' : Char).utf8Size = 1 from rfl]

/-- A line of a text is the piece between two newlines, without the carriage returns at its end. -/
theorem Addressable.lineText_eq (hfits : Addressable text) (l : Nat) :
    (ofText text).lineText text l =
      String.ofList (dropEndWhile (· = '\r') (((text.toList.splitOn '\n')[l]?).getD [])) := by
  rw [lineText_eq_slice]
  cases hpiece : (text.toList.splitOn '\n')[l]? with
  | none =>
    have hnone : (ofText text).starts[l]? = none := by
      rw [List.getElem?_eq_none_iff] at hpiece ⊢
      rwa [hfits.starts_ofText, lineStarts_eq, length_offsets]
    rw [range?, hnone]
    rfl
  | some p =>
    obtain ⟨before, after, htext, hrange⟩ := hfits.range?_ofText hpiece
    have hslice := slice?_append before p after
    rw [← htext] at hslice
    rw [hrange, Option.bind_some, hslice]

/-- A text of two lines. The second one starts 5 bytes behind the last offset that fits, and it is the
beginning of a string literal. -/
noncomputable def overlong : String :=
  String.ofList (List.replicate (UInt32.size + 4) 'x' ++ ['\n', '"', 'y'])

theorem length_bytes_replicate (n : Nat) : (bytes (List.replicate n 'x')).length = n := by
  induction n with
  | zero => rfl
  | succ n ih =>
    rw [List.replicate_succ, length_bytes_cons, ih, Nat.add_comm]
    rfl

theorem newline_not_mem_replicate (n : Nat) : '\n' ∉ List.replicate n 'x' :=
  fun h => absurd (List.eq_of_mem_replicate h) (by decide)

theorem lineStarts_pair {first second : List Char} (hfirst : '\n' ∉ first) (hsecond : '\n' ∉ second) :
    lineStarts (String.ofList (first ++ '\n' :: second)) = [0, (bytes first).length + 1] := by
  rw [lineStarts_eq, String.toList_ofList, List.splitOn_append_cons_self_of_not_mem hfirst,
    List.splitOn_eq_singleton hsecond, offsets, offsets, offsets, Nat.zero_add]

theorem lineStarts_overlong : lineStarts overlong = [0, UInt32.size + 5] := by
  unfold overlong
  -- The width of an offset is kept a variable, so that nobody writes the text down.
  generalize UInt32.size = size
  rw [lineStarts_pair (newline_not_mem_replicate _) (by decide), length_bytes_replicate]

/-- The offset of the second line has started over. -/
theorem starts_overlong : (ofText overlong).starts = [0, 5] := by
  have hsize : 5 < UInt32.size := by decide
  rw [ofText, lineStarts_overlong, List.map_cons, List.map_cons, List.map_nil, Nat.zero_mod,
    Nat.add_mod_left, Nat.mod_eq_of_lt hsize]

/-- A position in the first line is taken for one in the second line. -/
theorem lineOf_overlong : (ofText overlong).lineOf 7 = 1 := by
  have hsearch : Search.binary [0, 5] 7 = .missing 2 := by
    simp [Search.binary, Search.narrow]
  rw [lineOf, starts_overlong, hsearch]
  rfl

/-- The last line of a map is cut out up to the end of the text. -/
theorem lineText_last {m : LineMap} {l : Nat} {before : List Char}
    (hstart : m.starts[l]? = some (bytes before).length) (hnext : m.starts[l + 1]? = none)
    (line : List Char) : m.lineText (String.ofList (before ++ line)) l =
      String.ofList (dropEndWhile (· = '\r') line) := by
  have hslice := slice?_append before line []
  rw [List.append_nil] at hslice
  rw [lineText_eq_slice, range?, hstart, hnext, String.toList_ofList, Option.map_some,
    Option.map_none, Option.getD_none, bytes_append, List.length_append, Option.bind_some, hslice,
    Option.getD_some]

theorem overlong_eq : overlong = String.ofList (List.replicate 5 'x' ++
    (List.replicate (UInt32.size - 1) 'x' ++ ['\n', '"', 'y'])) := by
  have hsize : 5 < UInt32.size := by decide
  unfold overlong
  generalize UInt32.size = size at hsize ⊢
  have hsplit : size + 4 = 5 + (size - 1) := by omega
  rw [hsplit, List.replicate_add, List.append_assoc]

/-- What is cut out of the text as its second line begins inside of the first one. -/
theorem lineText_overlong : (ofText overlong).lineText overlong 1 =
    String.ofList (List.replicate (UInt32.size - 1) 'x' ++ ['\n', '"', 'y']) := by
  have hstart : (ofText overlong).starts[1]? = some (bytes (List.replicate 5 'x')).length := by
    rw [starts_overlong]
    rfl
  have hnext : (ofText overlong).starts[1 + 1]? = none := by
    rw [starts_overlong]
    rfl
  have hend (s : List Char) : dropEndWhile (· = '\r') (s ++ ['\n', '"', 'y']) =
      s ++ ['\n', '"', 'y'] := by
    have hlast := dropEndWhile_concat (p := (· = '\r')) (c := 'y') rfl (s ++ ['\n', '"'])
    rwa [List.append_assoc] at hlast
  have hline := lineText_last hstart hnext (List.replicate (UInt32.size - 1) 'x' ++ ['\n', '"', 'y'])
  rwa [← overlong_eq, hend] at hline

end LineMap

/-- A line of the source has no newline in it, as long as the offsets of the lines fit. -/
theorem SourceText.not_mem_lineAt {text : String} (h : LineMap.Addressable text) (l : Nat) :
    '\n' ∉ ((ofText text).lineAt l).toList := by
  rw [lineAt, ofText, h.lineText_eq, String.toList_ofList, Text.dropEndWhile, List.mem_reverse]
  intro hmem
  have hmem := List.mem_reverse.mp ((List.dropWhile_sublist _).subset hmem)
  cases hpiece : (text.toList.splitOn '\n')[l]? with
  | none => simp [hpiece] at hmem
  | some p =>
    rw [hpiece] at hmem
    exact Text.not_mem_of_mem_splitOn (List.mem_of_getElem? hpiece) hmem

end Goward
