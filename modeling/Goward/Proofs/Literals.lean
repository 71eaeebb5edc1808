import Goward.Json.Strings
import Goward.Proofs.Declarations

/-!
# Literals read back

Interpreted string literals are read by the rules of Go. What is quoted reads back as the bytes of
the text, whatever follows the literal: each byte is written in a way that ends by itself, and a
quote inside of a literal is always escaped. A literal stands on one line, so a line that has one is
laid out as it is.
-/

namespace Goward

namespace Text

/-- The byte that a character stands for behind a backslash. -/
def escapedByte? : Char → Option UInt8
  | 't' => some 0x09
  | 'n' => some 0x0a
  | 'r' => some 0x0d
  | '"' => some 0x22
  | '\\' => some 0x5c
  | _ => none

/-- Reads a literal from behind its opening quote: its bytes, and the text behind it. It ends at the
first quote that is not escaped, which has to stand on the same line. -/
def unquoteFrom? : List Char → Option (List UInt8 × List Char)
  | [] => none
  | '"' :: rest => some ([], rest)
  | '\n' :: _ => none
  | '\\' :: 'x' :: high :: low :: rest => do
    let i ← Json.hexDigit? high
    let j ← Json.hexDigit? low
    let (bs, behind) ← unquoteFrom? rest
    return (UInt8.ofNat (i * 16 + j) :: bs, behind)
  | '\\' :: c :: rest => do
    let b ← escapedByte? c
    let (bs, behind) ← unquoteFrom? rest
    return (b :: bs, behind)
  | ['\\'] => none
  | c :: rest => do
    let (bs, behind) ← unquoteFrom? rest
    return (String.utf8EncodeChar c ++ bs, behind)

/-- Reads the interpreted string literal with which a text begins: its bytes, and the text behind
it. -/
def unquote? : List Char → Option (List UInt8 × List Char)
  | '"' :: rest => unquoteFrom? rest
  | _ => none

/-- The characters of a text inside of a literal escape the one behind them: the last one is a
backslash that is not escaped itself. -/
def escapesNext : List Char → Bool
  | [] => false
  | ['\\'] => true
  | '\\' :: _ :: rest => escapesNext rest
  | _ :: rest => escapesNext rest

variable {bs : List UInt8} {l rest before after : List Char} {c : Char} {s : String}

theorem unquoteFrom?_char (hquote : c ≠ '"') (hnewline : c ≠ '\n') (hescape : c ≠ '\\')
    (rest : List Char) : unquoteFrom? (c :: rest) =
      (unquoteFrom? rest).map fun r => (String.utf8EncodeChar c ++ r.1, r.2) := by
  rw [unquoteFrom?]
  · cases unquoteFrom? rest <;> rfl
  · exact hquote
  · exact hnewline
  · exact fun _ _ _ h => absurd h hescape
  · exact fun _ _ h => absurd h hescape
  · exact fun h => absurd h hescape

theorem unquoteFrom?_escaped {b : UInt8} (hc : escapedByte? c = some b) (rest : List Char) :
    unquoteFrom? ('\\' :: c :: rest) = (unquoteFrom? rest).map fun r => (b :: r.1, r.2) := by
  have hne : c ≠ 'x' := fun heq => by simp [heq, escapedByte?] at hc
  rw [unquoteFrom?]
  · rw [hc]
    cases unquoteFrom? rest <;> rfl
  · exact fun _ _ _ h => absurd h hne

theorem hexDigit?_digitChar {n : Nat} (h : n < 16) : Json.hexDigit? (Nat.digitChar n) = some n := by
  have hall : ∀ n < 16, Json.hexDigit? (Nat.digitChar n) = some n := by decide
  exact hall n h

theorem unquoteFrom?_hex {i j : Nat} (hi : i < 16) (hj : j < 16) (rest : List Char) :
    unquoteFrom? ('\\' :: 'x' :: Nat.digitChar i :: Nat.digitChar j :: rest) =
      (unquoteFrom? rest).map fun r => (UInt8.ofNat (i * 16 + j) :: r.1, r.2) := by
  rw [unquoteFrom?, hexDigit?_digitChar hi, hexDigit?_digitChar hj]
  cases unquoteFrom? rest <;> rfl

theorem utf8EncodeChar_of_ascii (h : c.toNat ≤ 127) :
    String.utf8EncodeChar c = [UInt8.ofNat c.toNat] := by
  rw [utf8EncodeChar_eq, if_pos h, multibyte]

/-- What reads as a byte inside of a literal: a letter that stands for it behind a backslash, its own
character, or its number. -/
inductive ByteSpelling (b : UInt8) : List Char → Prop
  | letter {c : Char} (hc : escapedByte? c = some b) : ByteSpelling b ['\\', c]
  | itself {c : Char} (hc : c.toNat = b.toNat) (hvisible : 32 ≤ b.toNat ∧ b.toNat ≤ 126)
    (hquote : c ≠ '"') (hescape : c ≠ '\\') : ByteSpelling b [c]
  | number {i j : Nat} (hi : i < 16) (hj : j < 16) (hvalue : UInt8.ofNat (i * 16 + j) = b) :
    ByteSpelling b ['\\', 'x', Nat.digitChar i, Nat.digitChar j]

/-- What is written for a byte reads as the byte. -/
theorem byteSpelling_quoteByte (b : UInt8) : ByteSpelling b (quoteByte b) := by
  have hlt := b.toNat_lt
  have hletter (c : Char) (d : UInt8) (hc : escapedByte? c = some d) (hd : b.toNat = d.toNat) :
      ByteSpelling b ['\\', c] := by
    rw [UInt8.toNat_inj.mp hd]
    exact .letter hc
  rw [quoteByte]
  split_ifs with htab hreturn hnewline hquote hescape hvisible
  · exact hletter 't' 0x09 rfl htab
  · exact hletter 'r' 0x0d rfl hreturn
  · exact hletter 'n' 0x0a rfl hnewline
  · exact hletter '"' 0x22 rfl hquote
  · exact hletter '\\' 0x5c rfl hescape
  · have hvalid : b.toNat.isValidChar := .inl (by omega)
    have hvalue : (Char.ofNat b.toNat).toNat = b.toNat := by
      rw [Char.ofNat, dif_pos hvalid]
      rfl
    exact .itself hvalue hvisible (fun heq => hquote (hvalue ▸ heq ▸ rfl))
      fun heq => hescape (hvalue ▸ heq ▸ rfl)
  · refine .number (by omega) (by omega) ?_
    rw [Nat.div_add_mod', UInt8.ofNat_toNat]

theorem unquoteFrom?_append {b : UInt8} (hl : ByteSpelling b l) (rest : List Char) :
    unquoteFrom? (l ++ rest) = (unquoteFrom? rest).map fun r => (b :: r.1, r.2) := by
  cases hl with
  | letter hc => exact unquoteFrom?_escaped hc rest
  | @itself c hc hvisible hquote hescape =>
    have hnewline : c ≠ '\n' := by
      rintro rfl
      exact absurd (hc.trans_ge hvisible.1) (by decide)
    have hbytes : String.utf8EncodeChar c = [b] := by
      rw [utf8EncodeChar_of_ascii (by omega), hc, UInt8.ofNat_toNat]
    rw [List.singleton_append, unquoteFrom?_char hquote hnewline hescape, hbytes]
    rfl
  | number hi hj hvalue =>
    rw [← hvalue]
    exact unquoteFrom?_hex hi hj rest

/-- A quoted text reads back as its bytes, and what comes behind it is left. -/
theorem unquote?_quote (s : String) (rest : List Char) :
    unquote? ((quote s).toList ++ rest) = some (bytes s.toList, rest) := by
  have hbytes (bs : List UInt8) :
      unquoteFrom? (bs.flatMap quoteByte ++ '"' :: rest) = some (bs, rest) := by
    induction bs with
    | nil => rfl
    | cons b bs ih =>
      rw [List.flatMap_cons, List.append_assoc, unquoteFrom?_append (byteSpelling_quoteByte b), ih]
      rfl
  rw [quote, String.toList_ofList, quoteChars, List.append_assoc]
  exact hbytes (bytes s.toList)

/-- Texts with the same bytes are the same. -/
theorem bytes_injective : Function.Injective bytes := by
  intro s t heq
  rcases lt_trichotomy s t with hlt | rfl | hlt
  · exact absurd (heq ▸ (lt_iff_bytes_lt s t).mp hlt) (List.lt_irrefl _)
  · rfl
  · exact absurd (heq ▸ (lt_iff_bytes_lt t s).mp hlt) (List.lt_irrefl _)

theorem quote_injective : Function.Injective quote := by
  intro s t heq
  have hread := unquote?_quote s []
  rw [heq, unquote?_quote t []] at hread
  exact String.toList_inj.mp (bytes_injective (Prod.mk.inj (Option.some.inj hread)).1.symm)

/-! ### Where a literal ends -/

theorem escapesNext_append {b : UInt8} (hl : ByteSpelling b l) (rest : List Char) :
    escapesNext (l ++ rest) = escapesNext rest := by
  have hdigit : ∀ n < 16, Nat.digitChar n ≠ '\\' := by decide
  have hplain (c : Char) (hc : c ≠ '\\') (rest : List Char) :
      escapesNext (c :: rest) = escapesNext rest := by
    rw [escapesNext]
    · exact fun h => absurd h hc
    · exact fun _ _ h => absurd h hc
  cases hl with
  | letter _ => rfl
  | itself _ _ _ hescape => exact hplain _ hescape rest
  | number hi hj _ => exact (hplain _ (hdigit _ hi) _).trans (hplain _ (hdigit _ hj) rest)

/-- A quote inside of what is written for a byte has a backslash before it, and nothing else. -/
theorem ByteSpelling.before_quote {b : UInt8} (h : ByteSpelling b (before ++ '"' :: after)) :
    before = ['\\'] := by
  generalize hl : before ++ '"' :: after = l at h
  have hdigit : ∀ n < 16, '"' ≠ Nat.digitChar n := by decide
  cases h with
  | letter _ =>
    cases before with
    | nil => cases hl
    | cons d before =>
      obtain ⟨rfl, hl⟩ := List.cons.inj hl
      cases before with
      | nil => rfl
      | cons _ before => simp at hl
  | itself _ _ hquote _ =>
    have hmem : '"' ∈ before ++ '"' :: after := List.mem_append_right _ List.mem_cons_self
    rw [hl] at hmem
    exact absurd (List.mem_singleton.mp hmem).symm hquote
  | number hi hj _ =>
    have hmem : '"' ∈ before ++ '"' :: after := List.mem_append_right _ List.mem_cons_self
    simp [hl, hdigit _ hi, hdigit _ hj] at hmem

/-- Of the quotes behind the opening one, only the last character of a literal is not escaped. -/
theorem escapesNext_of_quote (h : (quote s).toList = '"' :: before ++ '"' :: after) :
    escapesNext before = true ↔ after ≠ [] := by
  have hbytes (bs : List UInt8) (before : List Char)
      (h : bs.flatMap quoteByte ++ ['"'] = before ++ '"' :: after) :
      escapesNext before = true ↔ after ≠ [] := by
    induction bs generalizing before with
    | nil =>
      cases before with
      | nil =>
        obtain rfl : [] = after := (List.cons.inj h).2
        simp [escapesNext]
      | cons c before => simp at h
    | cons b bs ih =>
      rw [List.flatMap_cons, List.append_assoc, List.append_eq_append_iff] at h
      rcases h with ⟨behind, rfl, hrest⟩ | ⟨inner, hb, hrest⟩
      · rw [escapesNext_append (byteSpelling_quoteByte b), ih behind hrest]
      · cases inner with
        | nil =>
          have hbefore : escapesNext before = escapesNext (quoteByte b ++ []) := by simp [hb]
          rw [hbefore, escapesNext_append (byteSpelling_quoteByte b), ih [] hrest.symm]
        | cons c inner =>
          -- the quote is the one that is written for the byte
          obtain ⟨rfl, rfl⟩ := List.cons.inj hrest
          have hspelled := byteSpelling_quoteByte b
          rw [hb] at hspelled
          rw [hspelled.before_quote]
          simp [escapesNext]
  rw [quote, String.toList_ofList, quoteChars, List.cons_append, List.cons_append] at h
  exact hbytes _ _ (List.cons.inj h).2

/-- Whether a character is printable ASCII. -/
def IsPrintable (c : Char) : Prop := ' ' ≤ c ∧ c ≤ '~'

instance : DecidablePred IsPrintable := fun c => inferInstanceAs (Decidable (' ' ≤ c ∧ c ≤ '~'))

theorem ByteSpelling.printable {b : UInt8} (h : ByteSpelling b l) : ∀ c ∈ l, IsPrintable c := by
  have hmarks : IsPrintable '\\' ∧ IsPrintable 'x' := by decide
  have hdigit : ∀ n < 16, IsPrintable (Nat.digitChar n) := by decide
  cases h with
  | @letter c hc =>
    have hletter : IsPrintable c := by
      unfold escapedByte? at hc
      split at hc <;> first | decide | cases hc
    simp only [List.forall_mem_cons]
    exact ⟨hmarks.1, hletter, List.forall_mem_nil _⟩
  | itself hc hvisible _ _ =>
    refine List.forall_mem_singleton.mpr ⟨Char.le_def.mpr ?_, Char.le_def.mpr ?_⟩
    · exact UInt32.le_iff_toNat_le.mpr (hvisible.1.trans_eq hc.symm)
    · exact UInt32.le_iff_toNat_le.mpr (hc.trans_le hvisible.2)
  | number hi hj _ =>
    simp only [List.forall_mem_cons]
    exact ⟨hmarks.1, hmarks.2, hdigit _ hi, hdigit _ hj, List.forall_mem_nil _⟩

theorem isPrintable_of_mem_quote (h : c ∈ (quote s).toList) : IsPrintable c := by
  have hquote : IsPrintable '"' := by decide
  rw [quote, String.toList_ofList, quoteChars, List.mem_append, List.mem_cons] at h
  rcases h with (rfl | h) | h
  · exact hquote
  · obtain ⟨b, -, hb⟩ := List.mem_flatMap.mp h
    exact (byteSpelling_quoteByte b).printable c hb
  · exact List.mem_singleton.mp h ▸ hquote

/-- A literal of Go that stands for some bytes. -/
structure IsLiteral (l : List Char) (bs : List UInt8) : Prop where
  /-- It reads as the bytes, to its end, whatever comes behind it. -/
  reads : ∀ rest, unquote? (l ++ rest) = some (bs, rest)
  /-- Of the quotes behind the opening one, only its last character is not escaped. -/
  ends : ∀ before after, l = '"' :: before ++ '"' :: after →
    (escapesNext before = false ↔ after = [])
  printable : ∀ c ∈ l, IsPrintable c

theorem isLiteral_quote (s : String) : IsLiteral (quote s).toList (bytes s.toList) where
  reads := unquote?_quote s
  ends before after h := by
    rw [← Bool.not_eq_true, escapesNext_of_quote h, not_not]
  printable _ := isPrintable_of_mem_quote

/-- A digit that follows an escape by number is no part of it. -/
example : unquote? (quote "é1\"").toList = some ([0xc3, 0xa9, 0x31, 0x22], []) := by decide

end Text

open Goward.Text Goward.Layout

/-- Quoting is faithful. The literal of a text stands for the bytes of the text and ends where it
should, so different texts have different literals; and a line that has a literal in it is written as
it is, whatever comes before and behind the literal. -/
theorem quote_faithful :
    (∀ s, IsLiteral (quote s).toList (bytes s.toList)) ∧ Function.Injective quote ∧
      ∀ (w : Writer) (s before after : String), OneLine before → OneLine after →
        w.write (before ++ quote s ++ after) = { w with
          text := w.text ++ String.ofList (List.replicate w.level '\t') ++
            (before ++ quote s ++ after) ++ "\n" } := by
  refine ⟨isLiteral_quote, quote_injective, fun w s before after hbefore hafter => ?_⟩
  have hline : '\n' ∉ (before ++ quote s ++ after).toList :=
    oneLine_append.mpr ⟨oneLine_append.mpr ⟨hbefore, oneLine_quote s⟩, hafter⟩
  have hmem : '"' ∈ (before ++ quote s ++ after).toList := by
    simp [quote, quoteChars, String.toList_append]
  rw [Writer.write, Writer.writeAt, indented_eq, laid_line hline hmem (by decide), unlines_cons,
    unlines_nil]
  congr 1
  rw [← String.toList_inj]
  simp [String.toList_append]

theorem quote_faithful_argument : OneLine "f(" ∧ OneLine ") // \r" ∧
    Writer.write ⟨"x\n", 2⟩ ("f(" ++ quote "\"\n" ++ ") // \r") =
      ⟨"x\n\t\tf(\"\\\"\\n\") // \r\n", 2⟩ := by
  have hbefore : OneLine "f(" := .literal rfl
  have hafter : OneLine ") // \r" := .literal rfl
  have htext : "x\n" ++ String.ofList (List.replicate 2 '\t') ++ ("f(" ++ quote "\"\n" ++ ") // \r") ++
      "\n" = "x\n\t\tf(\"\\\"\\n\") // \r\n" := by decide
  exact ⟨hbefore, hafter,
    (quote_faithful.2.2 _ _ _ _ hbefore hafter).trans (congrArg (Writer.mk · 2) htext)⟩

end Goward
