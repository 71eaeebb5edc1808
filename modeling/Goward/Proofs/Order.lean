import Goward.Proofs.Scratch
import Goward.Text.Quoted
import Mathlib.Data.String.Basic

/-!
# The order of texts

The order of texts by code points is that of lists of characters, and it is also that of their UTF-8
bytes: of two numbers that take equally many bytes, the greater one has the greater byte where they
first differ, and one that takes more bytes begins with a greater byte. A list that is strictly
ascending stays so when an element with a new key is put in its place, and sorting leaves it as it is.
-/

namespace Goward.Text

theorem charsPrecede_iff_lt (s t : List Char) : charsPrecede s t = true ↔ s < t := by
  induction s generalizing t with
  | nil => cases t <;> simp [charsPrecede]
  | cons a s ih =>
    cases t with
    | nil => simp [charsPrecede]
    | cons b t =>
      have heq : a.toNat = b.toNat ↔ a = b := Char.toNat_inj
      rw [charsPrecede, List.cons_lt_cons_iff, ← ih]
      simp [heq, Char.lt_def, UInt32.lt_iff_toNat_lt]

theorem precedes_iff_lt (s t : String) : precedes s t = true ↔ s < t :=
  charsPrecede_iff_lt s.toList t.toList

theorem cons_lt_of_toNat_lt {a b : UInt8} (h : a.toNat < b.toNat) (s t : List UInt8) :
    a :: s < b :: t := List.cons_lt_cons_iff.mpr (.inl (UInt8.lt_iff_toNat_lt.mpr h))

/-- A byte of UTF-8 with the lowest six bits of a number. -/
def trailByte (n : Nat) : UInt8 := UInt8.ofNat (n % 64 + 128)

theorem toNat_trailByte (n : Nat) : (trailByte n).toNat = n % 64 + 128 := by
  rw [trailByte, UInt8.toNat_ofNat']
  omega

/-- A byte for the highest bits of a number, and `k` more for six bits each. -/
def multibyte (lead : Nat → UInt8) : Nat → Nat → List UInt8
  | 0, n => [lead n]
  | k + 1, n => multibyte lead k (n / 64) ++ [trailByte n]

theorem multibyte_lt {lead : Nat → UInt8} {k m n : Nat}
    (hlead : ∀ x y, x < y → y ≤ n / 64 ^ k → (lead x).toNat < (lead y).toNat) (h : m < n)
    (s t : List UInt8) : multibyte lead k m ++ s < multibyte lead k n ++ t := by
  induction k generalizing m n s t with
  | zero => exact cons_lt_of_toNat_lt (hlead m n h (by simp)) s t
  | succ k ih =>
    rw [multibyte, multibyte, List.append_assoc, List.append_assoc]
    rcases Nat.lt_or_eq_of_le (Nat.div_le_div_right (c := 64) h.le) with hlt | heq
    · refine ih (fun x y hxy hy => hlead x y hxy ?_) hlt _ _
      rwa [Nat.div_div_eq_div_mul, ← Nat.pow_succ'] at hy
    · have hdigit : (trailByte m).toNat < (trailByte n).toNat := by
        rw [toNat_trailByte, toNat_trailByte]
        omega
      rw [heq]
      exact List.append_left_lt (cons_lt_of_toNat_lt hdigit s t)

theorem utf8EncodeChar_eq (c : Char) : String.utf8EncodeChar c =
    if c.toNat ≤ 127 then multibyte UInt8.ofNat 0 c.toNat
    else if c.toNat ≤ 2047 then multibyte (fun n => UInt8.ofNat (n % 32 + 192)) 1 c.toNat
    else if c.toNat ≤ 65535 then multibyte (fun n => UInt8.ofNat (n % 16 + 224)) 2 c.toNat
    else multibyte (fun n => UInt8.ofNat (n % 8 + 240)) 3 c.toNat := by
  simp only [multibyte, Nat.div_div_eq_div_mul]
  rfl

/-- The bytes of characters are in the order of the characters, whatever follows them. -/
theorem utf8EncodeChar_lt {a b : Char} (h : a < b) (s t : List UInt8) :
    String.utf8EncodeChar a ++ s < String.utf8EncodeChar b ++ t := by
  have hmax : b.toNat < 1114112 := by
    rcases b.valid with hb | ⟨-, hb⟩
    · exact Nat.lt_trans hb (by decide)
    · exact hb
  have hlt : a.toNat < b.toNat := h
  rw [utf8EncodeChar_eq, utf8EncodeChar_eq]
  split_ifs
  all_goals first
    | omega
    | exact multibyte_lt (fun x y hxy hy => by simp only [UInt8.toNat_ofNat']; omega) hlt s t
    | exact cons_lt_of_toNat_lt (by simp only [UInt8.toNat_ofNat']; omega) _ _

/-- Texts are ordered like their UTF-8 bytes. -/
theorem lt_iff_bytes_lt (s t : List Char) : s < t ↔ bytes s < bytes t := by
  have hmono {s t : List Char} (h : s < t) : bytes s < bytes t := by
    induction s generalizing t with
    | nil =>
      cases t with
      | nil => exact absurd h (lt_irrefl _)
      | cons b t =>
        obtain ⟨x, xs, hx⟩ := List.exists_cons_of_ne_nil (String.utf8EncodeChar_ne_nil (c := b))
        simp [bytes, hx]
    | cons a s ih =>
      cases t with
      | nil => exact absurd h (by simp)
      | cons b t =>
        rcases List.cons_lt_cons_iff.mp h with hab | ⟨rfl, hst⟩
        · exact utf8EncodeChar_lt hab _ _
        · exact List.append_left_lt (ih hst)
  refine ⟨hmono, fun h => ?_⟩
  rcases lt_trichotomy s t with hst | rfl | hts
  · exact hst
  · exact absurd h (List.lt_irrefl _)
  · exact absurd h (List.lt_asymm (hmono hts))

variable {α : Type} {key : α → String} {x : α} {xs : List α}

/-- The keys of a list are strictly ascending. -/
def Ascending (key : α → String) (xs : List α) : Prop := (xs.map key).Pairwise (· < ·)

theorem Ascending.insertByKey (h : Ascending key xs) (hx : ∀ y ∈ xs, key y ≠ key x) :
    Ascending key (insertByKey key x xs) := by
  induction xs with
  | nil => exact List.pairwise_singleton _ _
  | cons y rest ih =>
    obtain ⟨hy, hrest⟩ := List.pairwise_cons.mp h
    have hrest := ih hrest fun z hz => hx z (List.mem_cons_of_mem _ hz)
    unfold Text.insertByKey
    split
    · next hlt =>
      rw [precedes_iff_lt] at hlt
      refine List.pairwise_cons.mpr ⟨fun k hk => ?_, h⟩
      rcases List.mem_cons.mp hk with rfl | hk
      · exact hlt
      · exact hlt.trans (hy k hk)
    · next hnot =>
      rw [precedes_iff_lt, not_lt] at hnot
      refine List.pairwise_cons.mpr ⟨fun k hk => ?_, hrest⟩
      rcases List.mem_cons.mp ((insertByKey_perm key x rest).map key |>.mem_iff.mp hk) with rfl | hk
      · exact lt_of_le_of_ne hnot (hx y List.mem_cons_self)
      · exact hy k hk

theorem Ascending.bytes (h : Ascending key xs) :
    (xs.map fun x => Text.bytes (key x).toList).Pairwise (· < ·) := by
  rw [Ascending, List.pairwise_map] at h
  rw [List.pairwise_map]
  exact h.imp fun hlt => (lt_iff_bytes_lt _ _).mp hlt

theorem insertByKey_eq_append (h : ∀ y ∈ xs, key y < key x) :
    insertByKey key x xs = xs ++ [x] := by
  induction xs with
  | nil => rfl
  | cons y rest ih =>
    have hnot : ¬precedes (key x) (key y) = true := by
      rw [precedes_iff_lt]
      exact lt_asymm (h y List.mem_cons_self)
    rw [insertByKey, if_neg hnot, ih fun z hz => h z (List.mem_cons_of_mem _ hz), List.cons_append]

theorem sortByKey_perm : (sortByKey key xs).Perm xs := by
  have hfold : ∀ rest before : List α,
      (rest.foldl (fun sorted x => Text.insertByKey key x sorted) before).Perm (rest ++ before) := by
    intro rest
    induction rest with
    | nil => exact fun before => .refl before
    | cons y rest ih =>
      intro before
      exact ((ih _).trans ((insertByKey_perm key y before).append_left rest)).trans
        List.perm_middle
  exact (hfold xs []).trans (.of_eq (List.append_nil xs))

/-- A list in strictly ascending order is sorted. -/
theorem Ascending.sortByKey_eq (h : Ascending key xs) : sortByKey key xs = xs := by
  have hfold : ∀ before rest, Ascending key (before ++ rest) →
      rest.foldl (fun sorted x => Text.insertByKey key x sorted) before = before ++ rest := by
    intro before rest
    induction rest generalizing before with
    | nil => simp
    | cons y rest ih =>
      intro h
      have hy : ∀ z ∈ before, key z < key y := by
        rw [Ascending, List.map_append, List.pairwise_append] at h
        exact fun z hz => h.2.2 _ (List.mem_map_of_mem hz) _ (by simp)
      have happend : before ++ y :: rest = before ++ [y] ++ rest := by simp
      rw [List.foldl_cons, insertByKey_eq_append hy, ih _ (happend ▸ h), happend]
  exact hfold [] xs h

end Goward.Text
