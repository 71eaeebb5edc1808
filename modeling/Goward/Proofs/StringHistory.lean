import Goward.Proofs.Literals
import Goward.Proofs.PackageHistory

/-!
# Histories of strings

The Go expressions for strings over any history of requests to a registry. A short word is shared:
it is put in the table and stays there, and its expression is a name made from it. Any other string
is a literal, which stands for the bytes of the string, and leaves the registry alone. So what an
expression stands for does not depend on the history, and different strings have different ones.
-/

namespace Goward

open Goward.Text

namespace Registry

/-- Whether a byte is an ASCII letter or digit, or the underscore. -/
def IsWordByte (b : UInt8) : Prop :=
  0x30 ≤ b ∧ b ≤ 0x39 ∨ 0x41 ≤ b ∧ b ≤ 0x5a ∨ b = 0x5f ∨ 0x61 ≤ b ∧ b ≤ 0x7a

instance : DecidablePred IsWordByte := fun b => inferInstanceAs (Decidable
  (0x30 ≤ b ∧ b ≤ 0x39 ∨ 0x41 ≤ b ∧ b ≤ 0x5a ∨ b = 0x5f ∨ 0x61 ≤ b ∧ b ≤ 0x7a))

/-- A string of at most 64 bytes, all of which are ASCII letters, digits or underscores. -/
def IsShortWord (s : String) : Prop :=
  (bytes s.toList).length ≤ 64 ∧ ∀ b ∈ bytes s.toList, IsWordByte b

theorem isWordByte_utf8EncodeChar (c : Char) :
    (∀ b ∈ String.utf8EncodeChar c, IsWordByte b) ↔ (c.isAlphanum || c == '_') = true := by
  have hascii : ∀ n < 128, IsWordByte (UInt8.ofNat n) ↔
      ((Char.ofNat n).isAlphanum || Char.ofNat n == '_') = true := by decide +kernel
  by_cases hc : c.toNat < 128
  · rw [utf8EncodeChar_of_ascii (by omega), List.forall_mem_singleton, hascii c.toNat hc,
      Char.ofNat_toNat]
  · -- beyond ASCII the last byte has its highest bit set
    have htrail : trailByte c.toNat ∈ String.utf8EncodeChar c := by
      rw [utf8EncodeChar_eq, if_neg (by omega)]
      split_ifs <;> exact List.mem_append_right _ (List.mem_singleton_self _)
    have hbyte : ¬IsWordByte (trailByte c.toNat) := by
      have hvalue := toNat_trailByte c.toNat
      simp only [IsWordByte, UInt8.le_iff_toNat_le, ← UInt8.toNat_inj, UInt8.reduceToNat]
      omega
    exact iff_of_false (fun h => hbyte (h _ htrail)) fun h => hc (lt_of_isWord h)

theorem utf8ByteSize_eq_bytes (s : String) : s.utf8ByteSize = (bytes s.toList).length := by
  rw [← String.size_toByteArray, ← String.utf8Encode_toList, List.utf8Encode,
    List.size_toByteArray, bytes]

theorem isSharable_iff (s : String) : isSharable s = true ↔ IsShortWord s := by
  have hword : isWord s = true ↔ ∀ b ∈ bytes s.toList, IsWordByte b := by
    rw [isWord, List.all_eq_true, bytes, List.forall_mem_flatMap]
    exact forall₂_congr fun c _ => (isWordByte_utf8EncodeChar c).symm
  rw [isSharable, Bool.and_eq_true, decide_eq_true_eq, utf8ByteSize_eq_bytes, hword]
  rfl

variable {o : Options} {r : Registry} {ops : List RegistryOp} {s : String}

/-- The strings in the table after one more request. -/
theorem mem_strings_serve (op : RegistryOp) : s ∈ (r.serve op).2.strings ↔
    s ∈ r.strings ∨ isSharable s = true ∧ op = .intern s := by
  cases op with
  | addImport path | addNative path =>
    simp only [serve, addImport, strings_addNative, reduceCtorEq, and_false, or_false]
  | intern x => simp only [serve, mem_strings_intern, RegistryOp.intern.injEq, eq_comm (a := x)]

/-- The strings in the table after some requests: those that were in it before, and the short words
among the requests. -/
theorem mem_strings_after : s ∈ (stateAfter serve r ops).strings ↔
    s ∈ r.strings ∨ isSharable s = true ∧ .intern s ∈ ops := by
  induction ops generalizing r with
  | nil => simp [stateAfter]
  | cons op rest ih =>
    rw [stateAfter_cons, ih, mem_strings_serve, List.mem_cons, or_assoc, ← and_or_left,
      eq_comm (a := op)]

/-- Different strings have different expressions: a name begins with another letter than a literal. -/
theorem text_of_inj {s t : String} (h : (StringRef.of s).text = (StringRef.of t).text) : s = t := by
  have hchars := congrArg String.toList h
  unfold StringRef.of at hchars
  split_ifs at hchars
  · exact String.toList_inj.mp (by simpa [StringRef.text] using hchars)
  · simp [StringRef.text] at hchars
  · simp [StringRef.text] at hchars
  · exact quote_injective (String.toList_inj.mp (by simpa [StringRef.text] using hchars))

/-- A string is shared: its expression is a name, and it is in the table from then on. -/
structure Shares (r : Registry) (s : String) : Prop where
  word : IsShortWord s
  text : (r.intern s).1.text = "ß" ++ s
  kept : ∀ ops, s ∈ (stateAfter serve (r.intern s).2 ops).strings

/-- A string is made where it is used: its expression has a literal for it, and nothing is left in the
registry. -/
structure Quotes (r : Registry) (s : String) : Prop where
  notWord : ¬IsShortWord s
  text : ∃ l : String, (r.intern s).1.text = "πg.NewStr(" ++ l ++ ")" ∧
    IsLiteral l.toList (bytes s.toList)
  unchanged : (r.intern s).2 = r

theorem shares_or_quotes (r : Registry) (s : String) : r.Shares s ∨ r.Quotes s := by
  by_cases hs : isSharable s = true
  · refine .inl ⟨(isSharable_iff s).mp hs, ?_, fun ops => ?_⟩
    · rw [intern_eq, StringRef.of, if_pos hs, StringRef.text]
    · rw [mem_strings_after, mem_strings_intern]
      exact .inl (.inr ⟨hs, rfl⟩)
  · refine .inr ⟨fun hword => hs ((isSharable_iff s).mpr hword), ⟨quote s, ?_, isLiteral_quote s⟩, ?_⟩
    · rw [intern_eq, StringRef.of, if_neg hs, StringRef.text]
    · rw [intern, if_neg hs]

/-- Every expression for a string stands for it. Whatever a new registry has been asked for, a short
word is answered with a name and kept in the table, any other string with a literal of its own that
leaves the registry as it was. Equal strings have equal expressions at any two times, different ones
never have. And the table has exactly the short words that were asked for, in strictly ascending
order of their bytes. -/
theorem strings_follow_history (o : Options) :
    (∀ ops s, Shares (stateAfter serve (.ofOptions o) ops) s ∨
      Quotes (stateAfter serve (.ofOptions o) ops) s) ∧
    (∀ ops ops' s s', ((stateAfter serve (.ofOptions o) ops).intern s).1.text =
      ((stateAfter serve (.ofOptions o) ops').intern s').1.text ↔ s = s') ∧
    ∀ ops, (∀ s, s ∈ (stateAfter serve (.ofOptions o) ops).strings ↔
        IsShortWord s ∧ .intern s ∈ ops) ∧
      ((stateAfter serve (.ofOptions o) ops).strings.map fun s => bytes s.toList).Pairwise
        (· < ·) := by
  refine ⟨fun ops s => shares_or_quotes _ s, fun ops ops' s s' => ?_, fun ops => ⟨fun s => ?_, ?_⟩⟩
  · rw [intern_eq, intern_eq]
    exact ⟨text_of_inj, fun h => h ▸ rfl⟩
  · rw [mem_strings_after, ← isSharable_iff]
    exact or_iff_right List.not_mem_nil
  · exact (records o ops).ordered.strings.bytes

/-- A word is asked for twice, and a text that is no word. -/
example : (stateAfter serve (.ofOptions {})
    [.intern "b", .intern "a b", .intern "a", .intern "b"]).strings = ["a", "b"] := by decide

end Registry

end Goward
