import Goward.Proofs.Provenance

/-!
# Texts on one line

Texts without a newline, among them numbers and quoted texts, and the names of scratch variables and
packages if the identifiers of the module and the options have none.
-/

namespace Goward

namespace Text

/-- A text without a newline. -/
def OneLine (s : String) : Prop := '\n' ∉ s.toList

instance : DecidablePred OneLine := fun s => inferInstanceAs (Decidable ('\n' ∉ s.toList))

/-- A literal, which is a list of characters: deciding it on the characters spares decoding them. -/
theorem OneLine.literal {l : List Char} (h : l.contains '\n' = false) :
    OneLine (String.ofList l) := by
  rw [OneLine, String.toList_ofList]
  exact fun hn => Bool.false_ne_true (h.symm.trans (List.contains_iff_mem.mpr hn))

variable {a b : String} {xs : List String}

@[simp] theorem oneLine_append : OneLine (a ++ b) ↔ OneLine a ∧ OneLine b := by
  rw [OneLine, String.toList_append, List.mem_append, not_or]
  rfl

/-- What holds of the empty text and of two texts together holds of a text made of several. -/
theorem join_induction {P : String → Prop} (hempty : P "")
    (happend : ∀ {a b : String}, P a → P b → P (a ++ b)) (h : ∀ x ∈ xs, P x) :
    P (String.join xs) := by
  induction xs with
  | nil => exact hempty
  | cons x rest ih =>
    rw [String.join_cons]
    exact happend (h x List.mem_cons_self) (ih fun y hy => h y (List.mem_cons_of_mem _ hy))

theorem intercalate_induction {P : String → Prop} (hempty : P "")
    (happend : ∀ {a b : String}, P a → P b → P (a ++ b)) (ha : P a) (h : ∀ x ∈ xs, P x) :
    P (a.intercalate xs) := by
  induction xs with
  | nil => exact String.intercalate_nil ▸ hempty
  | cons x rest ih =>
    have hx := h x List.mem_cons_self
    have hrest := ih fun y hy => h y (List.mem_cons_of_mem _ hy)
    cases rest with
    | nil => rwa [String.intercalate_singleton]
    | cons y rest =>
      rw [String.intercalate_cons_cons]
      exact happend (happend hx ha) hrest

theorem oneLine_intercalate (ha : OneLine a) (h : ∀ x ∈ xs, OneLine x) :
    OneLine (a.intercalate xs) :=
  intercalate_induction (.literal rfl) (fun ha hb => oneLine_append.mpr ⟨ha, hb⟩) ha h

theorem oneLine_of_isDigit (h : ∀ c ∈ a.toList, c.isDigit = true) : OneLine a :=
  fun hn => absurd (h _ hn) (by decide)

theorem oneLine_toString (n : Nat) : OneLine (toString n) :=
  oneLine_of_isDigit isDigit_of_mem_toString

theorem oneLine_quote (s : String) : OneLine (quote s) := by
  have hbyte : ∀ n < 256, '\n' ∉ quoteByte (UInt8.ofNat n) := by decide +kernel
  rw [OneLine, quote, String.toList_ofList, quoteChars]
  intro hn
  rcases List.mem_append.mp hn with hn | hn
  · rcases List.mem_cons.mp hn with hn | hn
    · cases hn
    · obtain ⟨b, -, hb⟩ := List.mem_flatMap.mp hn
      refine hbyte b.toNat b.toNat_lt ?_
      rwa [UInt8.ofNat_toNat]
  · cases List.mem_singleton.mp hn

theorem oneLine_substituteChar {old : Char} (hb : OneLine b) (ha : OneLine a) :
    OneLine (substituteChar old b a) := by
  rw [OneLine, substituteChar, String.toList_ofList, List.mem_flatMap]
  rintro ⟨c, hc, hn⟩
  split at hn
  · exact hb hn
  · exact ha (List.mem_singleton.mp hn ▸ hc)

end Text

open Goward.Code Goward.Text

/-- Options without a newline. -/
structure Options.OneLine (o : Options) : Prop where
  fullPackageName : Text.OneLine o.fullPackageName
  runtime : Text.OneLine o.runtime
  libroot : Text.OneLine o.libroot
  filename : Text.OneLine o.filename

theorem Registry.oneLine_of_isWord {s : String} (h : isWord s = true) : OneLine s :=
  fun hn => absurd (List.all_eq_true.mp h _ hn) (by decide)

theorem Registry.isWord_of_isSharable {s : String} (h : isSharable s = true) : isWord s = true :=
  (Bool.and_eq_true_iff.mp h).2

theorem Temp.Scratch.oneLine {t : Temp} (h : t.Scratch) : OneLine t.name ∧ OneLine t.type := by
  obtain ⟨htype, n, hname⟩ := h
  have htypes : ∀ type ∈ types, OneLine type := by decide
  refine ⟨?_, htypes _ htype⟩
  rw [hname, numbered, oneLine_append]
  exact ⟨.literal rfl, oneLine_of_isDigit isDigit_of_mem_number⟩

variable {o : Options} {ids : List String}

theorem PathFrom.oneLine {path : String} (h : PathFrom ids path) (hids : ∀ x ∈ ids, OneLine x) :
    OneLine path := by
  obtain ⟨parts, hparts, rfl⟩ := h
  exact oneLine_intercalate (.literal rfl) fun part hpart => hids part (hparts part hpart)

theorem Registry.oneLine_packageFor {path : String} (hruntime : OneLine o.runtime)
    (h : OneLine path) :
    OneLine (packageFor o path).name ∧ OneLine (packageFor o path).goName := by
  have hpackage (path : String) (h : OneLine path) :
      OneLine (packageAt o path).name ∧ OneLine (packageAt o path).goName := by
    unfold packageAt
    split
    · exact ⟨hruntime, .literal rfl⟩
    · refine ⟨h, ?_⟩
      rw [Package.ofPath, oneLine_append]
      exact ⟨.literal rfl, oneLine_substituteChar (.literal rfl) h⟩
  unfold packageFor
  split
  · exact hpackage _ hruntime
  · exact hpackage _ h

theorem Package.From.oneLine {p : Package} (h : p.From o ids) (hruntime : OneLine o.runtime)
    (hlibroot : OneLine o.libroot) (hids : ∀ x ∈ ids, OneLine x) :
    OneLine p.name ∧ OneLine p.goName := by
  obtain ⟨path, rfl, hpath⟩ := h
  refine Registry.oneLine_packageFor hruntime ?_
  rcases hpath with rfl | rfl | hpath | ⟨below, rfl, hbelow⟩
  · exact .literal rfl
  · exact .literal rfl
  · exact hpath.oneLine hids
  · simp only [oneLine_append]
    exact ⟨⟨hlibroot, .literal rfl⟩, hbelow.oneLine hids⟩

end Goward
