import Goward.Proofs.Order
import Goward.Proofs.SourceLines
import Mathlib.Data.List.TakeWhile

/-!
# Positions and lines

A line begins at the first byte of a text and right after every newline, so the line of a position is
the number of newlines before it, also if the position lies behind the end of the text. The starts are
strictly ascending as long as they fit in 32 bits; therefore the binary search among them leads to that
line, whether it finds the position or only the place where it belongs. That place is never the first
one, whatever the text. Every line can be cut out of its text. All this holds just of the texts in which
no line starts at an offset that is too large.
-/

namespace Goward

namespace Text

/-- The byte of a newline. -/
def newline : UInt8 := 0x0a

theorem bytes_cons_newline (s : List Char) :
    bytes ('\n' :: s) = newline :: bytes s := rfl

/-- The bytes of a character outside of ASCII are all outside of ASCII. -/
theorem le_toNat_of_mem_utf8EncodeChar {c : Char} (hc : 127 < c.toNat) {b : UInt8}
    (hb : b ∈ String.utf8EncodeChar c) : 128 ≤ b.toNat := by
  have hascii : ¬c.toNat ≤ 127 := by omega
  rw [utf8EncodeChar_eq, if_neg hascii] at hb
  split_ifs at hb
  all_goals
    simp only [multibyte, List.cons_append, List.nil_append, List.mem_cons,
      List.not_mem_nil, or_false] at hb
    rcases hb with rfl | rfl | rfl | rfl
  all_goals
    simp only [toNat_trailByte, UInt8.toNat_ofNat']
    omega

/-- No other character has the byte of a newline in it. -/
theorem newline_not_mem_utf8EncodeChar {c : Char} (hc : c ≠ '\n') :
    newline ∉ String.utf8EncodeChar c := by
  intro hmem
  by_cases hascii : c.toNat ≤ 127
  · have hbytes : String.utf8EncodeChar c = [UInt8.ofNat c.toNat] := by
      rw [utf8EncodeChar_eq, if_pos hascii, multibyte]
    rw [hbytes, List.mem_singleton] at hmem
    apply hc
    apply Char.toNat_inj.mp
    have hbyte := congrArg UInt8.toNat hmem
    rw [UInt8.toNat_ofNat'] at hbyte
    have hnewline : newline.toNat = 10 := rfl
    have hchar : ('\n' : Char).toNat = 10 := rfl
    omega
  · have hle := le_toNat_of_mem_utf8EncodeChar (by omega) hmem
    exact absurd hle (by decide)

/-- All occurrences of a character at the end are cut off, and nothing else. -/
theorem dropEndWhile_eq (c : Char) (s : List Char) :
    (dropEndWhile (· = c) s).getLast? ≠ some c ∧
      ∃ k, s = dropEndWhile (· = c) s ++ List.replicate k c := by
  constructor
  · rw [dropEndWhile, List.getLast?_reverse]
    intro h
    have hhead := List.head?_dropWhile_not (· = c) s.reverse
    simp [h] at hhead
  · have hcut : ∀ d ∈ s.reverse.takeWhile (· = c), d = c := by
      intro d hd
      simpa using List.mem_takeWhile_imp hd
    refine ⟨(s.reverse.takeWhile (· = c)).length, ?_⟩
    calc s = (s.reverse.takeWhile (· = c) ++ s.reverse.dropWhile (· = c)).reverse := by
          rw [List.takeWhile_append_dropWhile, List.reverse_reverse]
      _ = dropEndWhile (· = c) s ++ (s.reverse.takeWhile (· = c)).reverse := by
          rw [List.reverse_append, dropEndWhile]
      _ = _ := by
          rw [List.eq_replicate_of_mem hcut, List.reverse_replicate, List.length_replicate]

end Text

namespace Search

/-- The answer is right for a number in an ascending list: either the number stands at the index, or
all numbers before the index are less and all others are greater. -/
def Right (xs : List Nat) (n : Nat) : Search → Prop
  | found i => xs[i]? = some n
  | missing i => ∃ before behind, xs = before ++ behind ∧ before.length = i ∧
    (∀ m ∈ before, m < n) ∧ ∀ m ∈ behind, n < m

/-- How many of the numbers are not greater, according to the answer. -/
def upTo : Search → Nat
  | found i => i + 1
  | missing i => i

variable {xs : List Nat} {n : Nat}

theorem length_takeWhile_le {before behind : List Nat} (hle : ∀ m ∈ before, m ≤ n)
    (hlt : ∀ m ∈ behind, n < m) :
    ((before ++ behind).takeWhile (· ≤ n)).length = before.length := by
  have hbehind : behind.takeWhile (· ≤ n) = [] := by
    cases behind with
    | nil => rfl
    | cons m rest =>
      have hm : n < m := hlt m List.mem_cons_self
      simp [hm]
  rw [List.takeWhile_append_of_pos (by simpa using hle), hbehind, List.append_nil]

/-- A right answer tells how many numbers of an ascending list are not greater. -/
theorem Right.length_takeWhile (hxs : xs.Pairwise (· < ·)) {a : Search} (ha : a.Right xs n) :
    (xs.takeWhile (· ≤ n)).length = a.upTo := by
  cases a with
  | missing i =>
    obtain ⟨before, behind, rfl, rfl, hbefore, hbehind⟩ := ha
    apply length_takeWhile_le _ hbehind
    intro m hm
    exact Nat.le_of_lt (hbefore m hm)
  | found i =>
    obtain ⟨hi, rfl⟩ := List.getElem?_eq_some_iff.mp ha
    have hsplit : xs = xs.take i ++ xs[i] :: xs.drop (i + 1) := by
      rw [← List.drop_eq_getElem_cons, List.take_append_drop]
    have hlength : (xs.take i).length = i := List.length_take_of_le (Nat.le_of_lt hi)
    generalize xs[i] = n at hsplit
    generalize xs.take i = before at hsplit hlength
    generalize xs.drop (i + 1) = behind at hsplit
    subst hsplit hlength
    obtain ⟨-, hbehind, hbefore⟩ := List.pairwise_append.mp hxs
    have hle : ∀ m ∈ before ++ [n], m ≤ n := by
      intro m hm
      rcases List.mem_append.mp hm with hm | hm
      · exact Nat.le_of_lt (hbefore m hm n List.mem_cons_self)
      · exact Nat.le_of_eq (List.mem_singleton.mp hm)
    have hcount := length_takeWhile_le hle (List.pairwise_cons.mp hbehind).1
    rw [List.append_assoc, List.singleton_append] at hcount
    rw [hcount, List.length_append, List.length_singleton, upTo]

/-- A right answer leads to the last number that is not greater, unless all are greater. -/
theorem Right.line_add_one (hxs : xs.Pairwise (· < ·)) {a : Search} (ha : a.Right xs n)
    (hne : a ≠ .missing 0) : a.line + 1 = (xs.takeWhile (· ≤ n)).length := by
  rw [ha.length_takeWhile hxs]
  cases a with
  | found i => rfl
  | missing i =>
    cases i with
    | zero => exact absurd rfl hne
    | succ i => rfl

/-- The search does not lead to a greater number, unless it stays at the first one. -/
theorem le_of_narrow (xs : List Nat) {n : Nat} (base size : Nat)
    (hbase : base = 0 ∨ ∃ m, xs[base]? = some m ∧ m ≤ n) :
    narrow xs n base size = 0 ∨ ∃ m, xs[narrow xs n base size]? = some m ∧ m ≤ n := by
  fun_induction narrow xs n base size with
  | case1 => exact hbase
  | case2 base size _ hmid ih =>
    obtain ⟨m, hm, hle⟩ := (Option.any_eq_true _ _).mp hmid
    exact ih (.inr ⟨m, hm, of_decide_eq_true hle⟩)
  | case3 base size _ _ ih => exact ih hbase

theorem lt_of_getElem? (hxs : xs.Pairwise (· < ·)) {i j a b : Nat} (hij : i < j)
    (ha : xs[i]? = some a) (hb : xs[j]? = some b) : a < b := by
  obtain ⟨hi, rfl⟩ := List.getElem?_eq_some_iff.mp ha
  obtain ⟨hj, rfl⟩ := List.getElem?_eq_some_iff.mp hb
  exact List.pairwise_iff_getElem.mp hxs i j hi hj hij

/-- In an ascending list the search passes over greater numbers only. -/
theorem lt_of_narrow_lt (hxs : xs.Pairwise (· < ·)) {base size : Nat} (hsize : 0 < size)
    (hlength : base + size ≤ xs.length)
    (hbehind : ∀ i m, base + size ≤ i → xs[i]? = some m → n < m) :
    narrow xs n base size < xs.length ∧
      ∀ i m, narrow xs n base size < i → xs[i]? = some m → n < m := by
  fun_induction narrow xs n base size with
  | case1 => exact ⟨by omega, fun i m hi => hbehind i m (by omega)⟩
  | case2 base size _ _ ih => exact ih (by omega) (by omega) fun i m hi => hbehind i m (by omega)
  | case3 base size _ hmid ih =>
    refine ih (by omega) (by omega) fun i m hi hm => ?_
    have hin : base + size / 2 < xs.length := by omega
    have hmiddle := List.getElem?_eq_getElem hin
    have hgreater : n < xs[base + size / 2] := by simpa [hmiddle] using hmid
    rcases Nat.lt_or_eq_of_le (show base + size / 2 ≤ i by omega) with hlt | rfl
    · exact Nat.lt_trans hgreater (lt_of_getElem? hxs hlt hmiddle hm)
    · exact Option.some.inj (hmiddle.symm.trans hm) ▸ hgreater

theorem binary_eq {m : Nat} (h : xs[narrow xs n 0 xs.length]? = some m) :
    binary xs n = if m = n then .found (narrow xs n 0 xs.length)
      else if m < n then .missing (narrow xs n 0 xs.length + 1)
      else .missing (narrow xs n 0 xs.length) := by
  simp only [binary, h]

/-- A binary search in an ascending list has a right answer. -/
theorem binary_right (hxs : xs.Pairwise (· < ·)) (n : Nat) : (binary xs n).Right xs n := by
  by_cases hempty : xs = []
  · subst hempty
    rw [binary, narrow]
    exact ⟨[], [], rfl, rfl, List.forall_mem_nil _, List.forall_mem_nil _⟩
  obtain ⟨hindex, hbehind⟩ := lt_of_narrow_lt (n := n) hxs (List.length_pos_iff.mpr hempty)
    (Nat.le_of_eq (Nat.zero_add _)) fun i m hi hm => by
      rw [List.getElem?_eq_none (by omega)] at hm
      cases hm
  have hle := le_of_narrow xs (n := n) 0 xs.length (.inl rfl)
  rw [binary_eq (List.getElem?_eq_getElem hindex)]
  generalize narrow xs n 0 xs.length = index at hindex hbehind hle ⊢
  have hm : xs[index]? = some xs[index] := List.getElem?_eq_getElem hindex
  have hdrop : ∀ i, ∀ m ∈ xs.drop i, ∃ k, i ≤ k ∧ xs[k]? = some m := by
    intro i m hmem
    obtain ⟨k, hk⟩ := List.mem_iff_getElem?.mp hmem
    exact ⟨i + k, Nat.le_add_right i k, by rwa [List.getElem?_drop] at hk⟩
  split_ifs with heq hlt
  · exact heq ▸ hm
  · refine ⟨xs.take (index + 1), xs.drop (index + 1), (List.take_append_drop _ _).symm,
      List.length_take_of_le hindex, fun m hmem => ?_, fun m hmem => ?_⟩
    · obtain ⟨k, hk, rfl⟩ := List.mem_take_iff_getElem.mp hmem
      rcases Nat.lt_or_eq_of_le (show k ≤ index by omega) with hk' | rfl
      · have hless := lt_of_getElem? hxs hk' (List.getElem?_eq_getElem (by omega)) hm
        omega
      · exact hlt
    · obtain ⟨k, hk, hkm⟩ := hdrop _ m hmem
      exact hbehind k m hk hkm
  · -- All numbers are greater: the search has stayed at the first one, which is greater.
    have hzero : index = 0 := by
      refine hle.resolve_right ?_
      rintro ⟨m, hm', hmn⟩
      have hfirst := Option.some.inj (hm.symm.trans hm')
      omega
    subst hzero
    refine ⟨[], xs, rfl, rfl, List.forall_mem_nil _, fun m hmem => ?_⟩
    obtain ⟨k, -, hkm⟩ := hdrop 0 m hmem
    rcases Nat.eq_zero_or_pos k with rfl | hk
    · have hfirst := Option.some.inj (hm.symm.trans hkm)
      omega
    · exact hbehind k m hk hkm

/-- In no list does a number belong before the first one, if that is not greater. -/
theorem binary_ne_missing_zero {m : Nat} (hfirst : xs[0]? = some m) (hle : m ≤ n) :
    binary xs n ≠ .missing 0 := by
  have hnarrow := le_of_narrow xs (n := n) 0 xs.length (.inl rfl)
  obtain ⟨k, hk, hkn⟩ : ∃ k, xs[narrow xs n 0 xs.length]? = some k ∧ k ≤ n := by
    rcases hnarrow with h | h
    · exact ⟨m, h.symm ▸ hfirst, hle⟩
    · exact h
  rw [binary_eq hk]
  split_ifs
  · exact nofun
  · exact nofun
  · omega

theorem index_le_of_ascending (hxs : xs.Pairwise (· < ·)) {i m : Nat} (h : xs[i]? = some m) :
    i ≤ m := by
  induction i generalizing m with
  | zero => exact Nat.zero_le m
  | succ i ih =>
    have hi : i < xs.length := Nat.lt_of_succ_lt (List.getElem?_eq_some_iff.mp h).1
    have hprev := List.getElem?_eq_getElem hi
    exact Nat.lt_of_le_of_lt (ih hprev) (lt_of_getElem? hxs (Nat.lt_succ_self i) hprev h)

end Search

/-! ### Starts -/

namespace LineMap

open Goward.Text

/-- The starts are strictly ascending. -/
theorem startsAfter_ascending (s : List Char) :
    ∀ pos, (pos :: startsAfter pos s).Pairwise (· < ·) := by
  induction s with
  | nil => exact fun pos => List.pairwise_singleton _ _
  | cons c s ih =>
    intro pos
    rw [startsAfter]
    have hsize := c.utf8Size_pos
    split
    · have hrest := ih (pos + 1)
      refine List.pairwise_cons.mpr ⟨fun start hstart => ?_, hrest⟩
      rcases List.mem_cons.mp hstart with rfl | hstart
      · omega
      · have hlt := (List.pairwise_cons.mp hrest).1 start hstart
        omega
    · obtain ⟨hafter, hrest⟩ := List.pairwise_cons.mp (ih (pos + c.utf8Size))
      refine List.pairwise_cons.mpr ⟨fun start hstart => ?_, hrest⟩
      have hlt := hafter start hstart
      omega

/-- No start is behind the end of the text. -/
theorem startsAfter_le (s : List Char) :
    ∀ pos, ∀ start ∈ startsAfter pos s, start ≤ pos + (bytes s).length := by
  induction s with
  | nil => exact fun pos start h => nomatch h
  | cons c s ih =>
    intro pos start hstart
    have hsize := c.utf8Size_pos
    rw [length_bytes_cons]
    rw [startsAfter] at hstart
    split at hstart
    · rcases List.mem_cons.mp hstart with rfl | hstart
      · omega
      · have hle := ih (pos + 1) start hstart
        omega
    · have hle := ih (pos + c.utf8Size) start hstart
      omega

/-- As many starts follow up to an offset as there are newlines before it. -/
theorem length_takeWhile_startsAfter (s : List Char) : ∀ pos n,
    ((startsAfter pos s).takeWhile (· ≤ pos + n)).length = ((bytes s).take n).count newline := by
  induction s with
  | nil => simp [startsAfter]
  | cons c s ih =>
    intro pos n
    rw [startsAfter]
    by_cases hc : c = '\n'
    · subst hc
      rw [if_pos rfl, bytes_cons_newline]
      cases n with
      | zero => simp
      | succ n =>
        have hsum : pos + (n + 1) = pos + 1 + n := by omega
        rw [List.takeWhile_cons_of_pos (by simp), List.length_cons, List.take_succ_cons,
          List.count_cons_self, hsum, ih]
    · have hbytes : bytes (c :: s) = String.utf8EncodeChar c ++ bytes s := rfl
      have hnone : ((String.utf8EncodeChar c).take n).count newline = 0 :=
        List.count_eq_zero_of_not_mem fun h =>
          newline_not_mem_utf8EncodeChar hc (List.mem_of_mem_take h)
      rw [if_neg hc, hbytes, List.take_append, List.count_append, hnone, Nat.zero_add,
        String.length_utf8EncodeChar]
      by_cases hn : c.utf8Size ≤ n
      · have hsum : pos + n = pos + c.utf8Size + (n - c.utf8Size) := by omega
        rw [hsum, ih]
      · -- The offset is inside of the character, and all further starts are behind it.
        have hrest := (List.pairwise_cons.mp (startsAfter_ascending s (pos + c.utf8Size))).1
        have hzero : n - c.utf8Size = 0 := by omega
        have hempty : (startsAfter (pos + c.utf8Size) s).takeWhile (· ≤ pos + n) = [] := by
          cases hstarts : startsAfter (pos + c.utf8Size) s with
          | nil => rfl
          | cons start more =>
            have hlt := hrest start (by simp [hstarts])
            apply List.takeWhile_cons_of_neg
            simp
            omega
        rw [hempty, hzero]
        rfl

variable {text : String}

theorem lineStarts_ascending (text : String) : (lineStarts text).Pairwise (· < ·) :=
  startsAfter_ascending text.toList 0

/-- The starts up to a position are one more than the newlines before it, as the first line starts
without one. -/
theorem length_takeWhile_lineStarts (text : String) (pos : Nat) :
    ((lineStarts text).takeWhile (· ≤ pos)).length =
      ((bytes text.toList).take pos).count newline + 1 := by
  have hrest := length_takeWhile_startsAfter text.toList 0 pos
  rw [Nat.zero_add] at hrest
  rw [lineStarts, List.takeWhile_cons_of_pos (by simp), List.length_cons, hrest]

theorem le_of_mem_lineStarts {start : Nat} (h : start ∈ lineStarts text) :
    start ≤ (bytes text.toList).length := by
  rcases List.mem_cons.mp h with rfl | h
  · exact Nat.zero_le _
  · simpa using startsAfter_le text.toList 0 start h

theorem count_ofText (text : String) :
    (ofText text).count = (bytes text.toList).count newline + 1 := by
  have hall : (lineStarts text).takeWhile (· ≤ (bytes text.toList).length) = lineStarts text :=
    List.takeWhile_eq_self_iff.mpr fun start h => decide_eq_true (le_of_mem_lineStarts h)
  have hcount := length_takeWhile_lineStarts text (bytes text.toList).length
  rwa [hall, List.take_length, ← List.length_map] at hcount

/-- No position belongs before the first line, whatever has become of the offsets. -/
theorem search_ne_missing_zero (text : String) (pos : Nat) :
    Search.binary (ofText text).starts pos ≠ .missing 0 :=
  Search.binary_ne_missing_zero (m := 0) rfl (Nat.zero_le pos)

theorem Addressable.ascending (h : Addressable text) : (ofText text).starts.Pairwise (· < ·) :=
  h.starts_ofText ▸ lineStarts_ascending text

theorem Addressable.lineOf_ofText (h : Addressable text) (pos : Nat) :
    (ofText text).lineOf pos = ((bytes text.toList).take pos).count newline := by
  have hline := (Search.binary_right h.ascending pos).line_add_one h.ascending
    (search_ne_missing_zero text pos)
  -- A line has no greater number than its start, so the number fits.
  obtain ⟨start, hstart⟩ : ∃ start,
      (lineStarts text)[(Search.binary (ofText text).starts pos).line]? = some start := by
    refine ⟨_, List.getElem?_eq_getElem ?_⟩
    have hlength := (List.takeWhile_prefix (· ≤ pos) (l := (ofText text).starts)).length_le
    have hsame := congrArg List.length h.starts_ofText
    omega
  have hfits := Nat.lt_of_le_of_lt
    (Search.index_le_of_ascending (lineStarts_ascending text) hstart)
    (h start (List.mem_of_getElem? hstart))
  rw [h.starts_ofText, length_takeWhile_lineStarts, ← h.starts_ofText] at hline
  rw [lineOf, Nat.mod_eq_of_lt hfits]
  exact Nat.succ.inj hline

/-- If the starts in the map are ascending and the line of a position is the number of newlines before
it, then no start was too large. -/
theorem addressable_of_lineOf (hascending : (ofText text).starts.Pairwise (· < ·))
    (hlines : ∀ pos < UInt32.size,
      (ofText text).lineOf pos = ((bytes text.toList).take pos).count newline) :
    Addressable text := by
  intro start hstart
  obtain ⟨line, hline⟩ := List.mem_iff_getElem?.mp hstart
  have hkept : (ofText text).starts[line]? = some (start % UInt32.size) := by
    rw [ofText, List.getElem?_map, hline, Option.map_some]
  have hwidth : start % UInt32.size < UInt32.size := Nat.mod_lt _ (by decide)
  have hsmall : line < UInt32.size :=
    Nat.lt_of_le_of_lt (Search.index_le_of_ascending hascending hkept) hwidth
  -- The search finds what was kept of the start, in the line that starts there.
  have hsearch := (Search.binary_right hascending (start % UInt32.size)).line_add_one hascending
    (search_ne_missing_zero text _)
  have hfound : Search.Right (ofText text).starts (start % UInt32.size) (.found line) := hkept
  rw [hfound.length_takeWhile hascending, Search.upTo] at hsearch
  have hnewlines := hlines _ hwidth
  rw [lineOf, Nat.succ.inj hsearch, Nat.mod_eq_of_lt hsmall] at hnewlines
  by_contra hlarge
  have hcount := length_takeWhile_lineStarts text (start % UInt32.size)
  rw [← hnewlines] at hcount
  have hinside : line < ((lineStarts text).takeWhile (· ≤ start % UInt32.size)).length := by
    rw [hcount]
    exact Nat.lt_succ_self line
  have hkeeps := (List.takeWhile_prefix (· ≤ start % UInt32.size)).getElem hinside
  have hle : ((lineStarts text).takeWhile (· ≤ start % UInt32.size))[line] ≤ start % UInt32.size := by
    simpa using List.mem_takeWhile_imp (List.getElem_mem hinside)
  rw [hkeeps, (List.getElem?_eq_some_iff.mp hline).2] at hle
  omega

/-- A line map tells the lines of a text. -/
structure Exact (m : LineMap) (text : String) : Prop where
  /-- The starts are strictly ascending and lie in the text or at its end. -/
  ascending : m.starts.Pairwise (· < ·)
  bounded : ∀ start ∈ m.starts, start ≤ (bytes text.toList).length
  /-- The line of a position is the number of newlines before it. -/
  lineOf : ∀ pos, m.lineOf pos = ((bytes text.toList).take pos).count newline
  /-- The binary search among the starts has a right answer. -/
  searched : ∀ pos, (Search.binary m.starts pos).Right m.starts pos
  /-- There are as many lines as there are pieces. -/
  pieces : m.count = (text.toList.splitOn '\n').length
  /-- The range for a line is that of its piece, so it is in the text and ends between characters. -/
  range : ∀ l p, (text.toList.splitOn '\n')[l]? = some p → ∃ before after,
    text.toList = before ++ (p ++ after) ∧
    m.range? text l = some ((bytes before).length, (bytes before).length + (bytes p).length) ∧
    slice? (bytes before).length ((bytes before).length + (bytes p).length) text.toList = some p
  /-- A line is its piece without the carriage returns at the end, all of them. -/
  lineText : ∀ l p, (text.toList.splitOn '\n')[l]? = some p →
    (m.lineText text l).toList.getLast? ≠ some '\r' ∧
      ∃ k, p = (m.lineText text l).toList ++ List.replicate k '\r'
  /-- There is nothing in a line behind the last one. -/
  beyond : ∀ l, m.count ≤ l → m.lineText text l = ""

theorem Addressable.exact (h : Addressable text) : (ofText text).Exact text where
  ascending := h.ascending
  bounded _ hstart := le_of_mem_lineStarts (h.starts_ofText ▸ hstart)
  lineOf := h.lineOf_ofText
  searched := Search.binary_right h.ascending
  pieces := by rw [LineMap.count, h.starts_ofText, lineStarts_eq, length_offsets]
  range l p hp := by
    obtain ⟨before, after, htext, hrange⟩ := h.range?_ofText hp
    exact ⟨before, after, htext, hrange, htext ▸ Text.slice?_append before p after⟩
  lineText l p hp := by
    rw [h.lineText_eq, hp, String.toList_ofList, Option.getD_some]
    exact Text.dropEndWhile_eq '\r' p
  beyond l hl := by
    have hnone : (text.toList.splitOn '\n')[l]? = none := by
      rw [List.getElem?_eq_none_iff]
      rwa [LineMap.count, h.starts_ofText, lineStarts_eq, length_offsets] at hl
    rw [h.lineText_eq, hnone]
    rfl

end LineMap

/-- The line map of a text is exact just if every line starts at an offset that fits in 32 bits. The
line of a position, also of one behind the end, is the number of newlines before it, and the binary
search finds it; every line is cut out of the text between two characters and loses its carriage
returns at the end. In every text there is one line more than newlines, and no position is looked for
before the first line. -/
theorem line_map_exact (text : String) :
    (LineMap.ofText text).count = (Text.bytes text.toList).count Text.newline + 1 ∧
      (∀ pos, Search.binary (LineMap.ofText text).starts pos ≠ .missing 0) ∧
      ((LineMap.ofText text).Exact text ↔ LineMap.Addressable text) :=
  ⟨LineMap.count_ofText text, LineMap.search_ne_missing_zero text,
    fun h => LineMap.addressable_of_lineOf h.ascending fun pos _ => h.lineOf pos,
    LineMap.Addressable.exact⟩

/-- In a text that is too long, a position without a newline before it is in the second line. -/
theorem line_map_starts_over :
    (LineMap.ofText LineMap.overlong).lineOf 7 = 1 ∧
      ((Text.bytes LineMap.overlong.toList).take 7).count Text.newline = 0 := by
  refine ⟨LineMap.lineOf_overlong, ?_⟩
  have hfirst : ([0, UInt32.size + 5].takeWhile (· ≤ 7)).length = 1 := by decide
  have hcount := LineMap.length_takeWhile_lineStarts LineMap.overlong 7
  rw [LineMap.lineStarts_overlong, hfirst] at hcount
  omega

end Goward
