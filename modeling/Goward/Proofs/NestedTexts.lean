import Goward.Proofs.Brackets

/-!
# Nested texts

Texts that are balanced: words, quoted texts, which have no brackets and end on their line, and the
names of packages if the identifiers of the module are words and the options have no characters that
mean something in Go.
-/

namespace Goward

namespace Text

/-- The characters that do more in code than stand for themselves. -/
def codeMarks : List Char :=
  ['"', '/', '\x27', '\x60', '\\', '(', ')', '[', ']', '\x7b', '\x7d']

/-- The characters that do more in a string literal than stand for themselves. -/
def stringMarks : List Char := ['"', '\\', '\n']

/-- The characters that an option has to do without: quotes, backslashes, brackets, newlines. -/
def reserved : List Char :=
  ['"', '\x27', '\x60', '\\', '(', ')', '[', ']', '\x7b', '\x7d', '\n']

namespace Place

variable {c : Char} {l : List Char}

theorem next?_code (h : c ∉ codeMarks) (p : List BracketKind) :
    next? ⟨.code, p⟩ c = some ⟨.code, p⟩ := by
  simp only [codeMarks, List.mem_cons, List.not_mem_nil, or_false, not_or] at h
  obtain ⟨hquote, hslash, hsingle, hback, hescape, hround, hround', hsquare, hsquare', hcurly,
    hcurly'⟩ := h
  have hmode : Mode.code.next? c = some .code := by
    simp [Mode.next?, hquote, hslash, hsingle, hback, hescape]
  have hbracket : bracket? c = none := by
    unfold bracket?
    split <;> first | contradiction | rfl
  simp [next?, hmode, Mode.brackets, hbracket, Bracket.stack?]

theorem next?_string (h : c ∉ stringMarks) (p : List BracketKind) :
    next? ⟨.string, p⟩ c = some ⟨.string, p⟩ := by
  simp only [stringMarks, List.mem_cons, List.not_mem_nil, or_false, not_or] at h
  simp [next?, Mode.next?, h, Mode.brackets, Bracket.stack?]

/-- Characters that do not lead away from a place. -/
theorem run?_stays {s : Place} (h : ∀ c ∈ l, s.next? c = some s) : s.run? l = some s := by
  induction l with
  | nil => rfl
  | cons c rest ih =>
    rw [run?, h c List.mem_cons_self, Option.bind_some,
      ih fun d hd => h d (List.mem_cons_of_mem _ hd)]

theorem run?_code (h : ∀ c ∈ l, c ∉ codeMarks) (p : List BracketKind) :
    run? ⟨.code, p⟩ l = some ⟨.code, p⟩ := run?_stays fun c hc => next?_code (h c hc) p

theorem run?_string (h : ∀ c ∈ l, c ∉ stringMarks) (p : List BracketKind) :
    run? ⟨.string, p⟩ l = some ⟨.string, p⟩ := run?_stays fun c hc => next?_string (h c hc) p

/-- One byte of a quoted text stays inside of the literal. -/
theorem run?_quoteByte (b : UInt8) (p : List BracketKind) :
    run? ⟨.string, p⟩ (quoteByte b) = some ⟨.string, p⟩ := by
  have hprintable : ∀ n < 127, 32 ≤ n ∧ n ≠ 34 ∧ n ≠ 92 → Char.ofNat n ∉ stringMarks := by
    decide +kernel
  have hdigit : ∀ n < 16, Nat.digitChar n ∉ stringMarks := by decide
  have hlt := b.toNat_lt
  rw [quoteByte]
  split_ifs with htab hreturn hnewline hquote hescape hvisible
  · rfl
  · rfl
  · rfl
  · rfl
  · rfl
  · refine run?_string (List.forall_mem_singleton.mpr ?_) p
    exact hprintable _ (by omega) ⟨hvisible.1, hquote, hescape⟩
  · refine run?_string (l := [_, _]) (List.forall_mem_cons.mpr ⟨hdigit _ (by omega), ?_⟩) p
    exact List.forall_mem_singleton.mpr (hdigit _ (by omega))

end Place

/-- A text without some characters. -/
def Without (cs : List Char) (s : String) : Prop := ∀ c ∈ s.toList, c ∉ cs

section Without

variable {cs ds : List Char} {a b s : String} {xs : List String}

theorem Without.literal {l : List Char} (h : l.all (!cs.contains ·) = true) :
    Without cs (String.ofList l) := by
  intro c hc hmark
  rw [String.toList_ofList] at hc
  simpa [hmark] using List.all_eq_true.mp h c hc

theorem Without.append (ha : Without cs a) (hb : Without cs b) : Without cs (a ++ b) := by
  intro c hc
  rw [String.toList_append] at hc
  exact (List.mem_append.mp hc).elim (ha c) (hb c)

theorem Without.mono (h : Without cs s) (hsub : ds ⊆ cs) : Without ds s :=
  fun c hc hd => h c hc (hsub hd)

theorem Without.cons {c : Char} (h : Without cs s) (hc : c ∉ s.toList) : Without (c :: cs) s := by
  intro d hd hmem
  rcases List.mem_cons.mp hmem with rfl | hmem
  · exact hc hd
  · exact h d hd hmem

theorem without_intercalate (ha : Without cs a) (h : ∀ x ∈ xs, Without cs x) :
    Without cs (a.intercalate xs) := intercalate_induction (.literal rfl) .append ha h

/-- Every occurrence of a character is replaced, so the text is without it afterwards. -/
theorem Without.substituteChar {c : Char} (hs : Without cs s) (hb : Without (c :: cs) b) :
    Without (c :: cs) (substituteChar c b s) := by
  intro d hd hmem
  rw [Text.substituteChar, String.toList_ofList, List.mem_flatMap] at hd
  obtain ⟨e, he, hd⟩ := hd
  split at hd
  · exact hb d hd hmem
  · next hne =>
    obtain rfl := List.mem_singleton.mp hd
    exact (List.mem_cons.mp hmem).elim hne (hs d he)

/-- Characters with a property that those to be avoided do not have. -/
theorem without_of_all {P : Char → Bool} (h : s.toList.all P = true)
    (hcs : cs.any P = false := by rfl) : Without cs s :=
  fun c hc hmark => List.any_eq_false.mp hcs c hmark (List.all_eq_true.mp h c hc)

end Without

/-! ### Balanced texts -/

variable {a b s : String} {p q r : List BracketKind} {xs : List String}

/-- A literal, which is a list of characters: it is read character by character. -/
theorem Takes.literal {l : List Char} (h : Place.run? ⟨.code, p⟩ l = some ⟨.code, q⟩) :
    Takes (String.ofList l) p q := by
  rwa [Takes, String.toList_ofList]

theorem Takes.append (ha : Takes a p q) (hb : Takes b q r) : Takes (a ++ b) p r := by
  rw [Takes, String.toList_append, Place.run?_append, ha]
  exact hb

theorem Balanced.literal {l : List Char} (h : ∀ p, Place.run? ⟨.code, p⟩ l = some ⟨.code, p⟩) :
    Balanced (String.ofList l) := fun p => .literal (h p)

theorem Balanced.append (ha : Balanced a) (hb : Balanced b) : Balanced (a ++ b) :=
  fun p => (ha p).append (hb p)

theorem Without.balanced (h : Without codeMarks s) : Balanced s := Place.run?_code h

theorem balanced_toString (n : Nat) : Balanced (toString n) :=
  (without_of_all (List.all_eq_true.mpr (isDigit_of_mem_toString (n := n)))).balanced

/-- A quoted text is passed over, whatever is in it. -/
theorem balanced_quote (s : String) : Balanced (quote s) := by
  intro p
  have hbytes (bs : List UInt8) :
      Place.run? ⟨.string, p⟩ (bs.flatMap quoteByte) = some ⟨.string, p⟩ := by
    induction bs with
    | nil => rfl
    | cons b rest ih =>
      rw [List.flatMap_cons, Place.run?_append, Place.run?_quoteByte, Option.bind_some, ih]
  have hopen : Place.next? ⟨.code, p⟩ '"' = some ⟨.string, p⟩ := rfl
  rw [Takes, quote, String.toList_ofList, quoteChars, List.cons_append, Place.run?, hopen,
    Option.bind_some, Place.run?_append, hbytes]
  rfl

/-- A text that is put between quotes as it is. -/
theorem Without.balanced_quoted (h : Without stringMarks s) : Balanced ("\"" ++ s ++ "\"") := by
  intro p
  have hopen : Place.run? ⟨.code, p⟩ "\"".toList = some ⟨.string, p⟩ := rfl
  rw [Takes, String.toList_append, String.toList_append, Place.run?_append, Place.run?_append,
    hopen, Option.bind_some, Place.run?_string h]
  rfl

end Text

open Goward.Code Goward.Text

/-- Options that may be written into Go text. Of the import path of a unit only the last component
stands outside of quotes. -/
structure Options.Inert (o : Options) : Prop where
  packageName : Without reserved o.packageName
  runtime : Without reserved o.runtime
  libroot : Without reserved o.libroot

theorem Temp.Scratch.balanced {t : Temp} (h : t.Scratch) : Balanced t.name ∧ Balanced t.type := by
  obtain ⟨htype, n, hname⟩ := h
  constructor
  · have hdigits : (number n).toList.all Char.isDigit = true :=
      List.all_eq_true.mpr isDigit_of_mem_number
    rw [hname, numbered]
    exact .append (.literal fun _ => rfl) (without_of_all hdigits).balanced
  · simp only [types, List.mem_cons, List.not_mem_nil, or_false] at htype
    rcases htype with htype | htype | htype | htype | htype <;>
      exact htype ▸ .literal fun _ => rfl

variable {o : Options} {ids : List String}

theorem PathFrom.inert {path : String} (h : PathFrom ids path)
    (hids : ∀ x ∈ ids, Registry.isWord x = true) : Without reserved path := by
  obtain ⟨parts, hparts, rfl⟩ := h
  exact without_intercalate (.literal rfl) fun part hpart =>
    without_of_all (hids part (hparts part hpart))

theorem Registry.nested_packageFor {path : String} (ho : o.Inert) (h : Without reserved path) :
    Without reserved (packageFor o path).name ∧ Balanced (packageFor o path).goName := by
  have hpackage (path : String) (h : Without reserved path) :
      Without reserved (packageAt o path).name ∧ Balanced (packageAt o path).goName := by
    unfold packageAt
    split
    · exact ⟨ho.runtime, .literal fun _ => rfl⟩
    · have hname : Without codeMarks (substituteChar '/' "Γ" path) :=
        (h.substituteChar (.literal rfl)).mono (by decide)
      exact ⟨h, .append (.literal fun _ => rfl) hname.balanced⟩
  unfold packageFor
  split
  · exact hpackage _ ho.runtime
  · exact hpackage _ h

theorem Package.From.nested {p : Package} (h : p.From o ids) (ho : o.Inert)
    (hids : ∀ x ∈ ids, Registry.isWord x = true) :
    Without reserved p.name ∧ Balanced p.goName := by
  obtain ⟨path, rfl, hpath⟩ := h
  refine Registry.nested_packageFor ho ?_
  rcases hpath with rfl | rfl | hpath | ⟨below, rfl, hbelow⟩
  · exact .literal rfl
  · exact .literal rfl
  · exact hpath.inert hids
  · exact (ho.libroot.append (.literal rfl)).append (hbelow.inert hids)

end Goward
