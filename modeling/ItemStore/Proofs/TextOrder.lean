import ItemStore.Proofs.KeyValue
import Mathlib.Data.String.Basic

/-!
# The order of texts

Texts are compared character by character, and so are keys that are strings.  This is the order of
their bytes (`Text.bytes_lt_bytes_iff`).

A character is encoded as its number to the base 64, from the highest digit on.  What is added to
the digits tells how many of them there are, and more of them mean a greater first byte
(`Encoding.first_lt`); of as many digits the first one that differs decides (`digits_lt`).  So two
characters are told apart by their bytes, whatever follows them.
-/

namespace ItemStore

namespace Text

/-! ## The bytes of a character -/

/-- The bytes that continue a character: so many digits of its number, the last ones. -/
def continuation : Nat → Nat → List UInt8
  | 0, _ => []
  | k + 1, n => continuation k (n / 64) ++ [UInt8.ofNat (n % 64 + 128)]

/-- How many bytes continue the character with a number, and what its first byte adds to the digits
that are left. -/
inductive Encoding (n : Nat) : Nat → Nat → Prop
  | one : n ≤ 0x7f → Encoding n 0 0
  | two : 0x7f < n → n ≤ 0x7ff → Encoding n 1 0xc0
  | three : 0x7ff < n → n ≤ 0xffff → Encoding n 2 0xe0
  | four : 0xffff < n → n < 0x110000 → Encoding n 3 0xf0

theorem exists_encoding (c : Char) : ∃ k lead, Encoding c.val.toNat k lead ∧
    String.utf8EncodeChar c =
      UInt8.ofNat (c.val.toNat / 64 ^ k + lead) :: continuation k c.val.toNat := by
  have hmax : c.val.toNat < 0x110000 := c.valid.elim (fun h => h.trans (by decide)) And.right
  rw [String.utf8EncodeChar]
  generalize c.val.toNat = n at hmax ⊢
  split
  next hone => exact ⟨0, 0, .one hone, by simp [continuation]⟩
  next hone =>
  split
  next htwo =>
    have htop : n / 64 % 32 = n / 64 := Nat.mod_eq_of_lt (by omega)
    exact ⟨1, 0xc0, .two (by omega) htwo, by simp [continuation, htop]⟩
  next htwo =>
  split
  next hthree =>
    have htop : n / 4096 % 16 = n / 4096 := Nat.mod_eq_of_lt (by omega)
    exact ⟨2, 0xe0, .three (by omega) hthree, by simp [continuation, htop]⟩
  next hthree =>
    have htop : n / 262144 % 8 = n / 262144 := Nat.mod_eq_of_lt (by omega)
    have hdigit : n / 64 / 64 = n / 4096 := Nat.div_div_eq_div_mul n 64 64
    exact ⟨3, 0xf0, .four (by omega) hmax, by simp [continuation, htop, hdigit]⟩

/-- A greater number has as many digits, or else a greater first byte. -/
theorem Encoding.first_lt {m n k l lead lead' : Nat} (hm : Encoding m k lead)
    (hn : Encoding n l lead') (h : m < n) : n / 64 ^ l + lead' < 256 ∧
      (k = l ∧ lead = lead' ∨ m / 64 ^ k + lead < n / 64 ^ l + lead') := by
  cases hm <;> cases hn <;>
    simp only [Nat.reducePow, Nat.pow_one, Nat.pow_zero, Nat.div_one, and_self, true_or,
      and_true] <;> omega

theorem byte_cons_lt {a b : Nat} (h : a < b) (hb : b < 256) (xs ys : List UInt8) :
    UInt8.ofNat a :: xs < UInt8.ofNat b :: ys := by
  refine List.cons_lt_cons_iff.mpr (Or.inl ?_)
  rwa [UInt8.lt_iff_toNat_lt, UInt8.toNat_ofNat_of_lt' (h.trans hb), UInt8.toNat_ofNat_of_lt' hb]

/-- Of as many digits the first one that differs decides. -/
theorem digits_lt {m n lead : Nat} (h : m < n) (k : Nat) (hn : n / 64 ^ k + lead < 256)
    (xs ys : List UInt8) :
    UInt8.ofNat (m / 64 ^ k + lead) :: (continuation k m ++ xs) <
      UInt8.ofNat (n / 64 ^ k + lead) :: (continuation k n ++ ys) := by
  induction k generalizing m n xs ys with
  | zero =>
      simp only [Nat.pow_zero, Nat.div_one] at hn ⊢
      exact byte_cons_lt (by omega) hn _ _
  | succ k ih =>
      have hdiv : ∀ i : Nat, i / 64 ^ (k + 1) = i / 64 / 64 ^ k := fun i => by
        rw [Nat.div_div_eq_div_mul, Nat.pow_succ, Nat.mul_comm]
      simp only [continuation, List.append_assoc, hdiv] at hn ⊢
      rcases Nat.lt_or_ge (m / 64) (n / 64) with hlt | hge
      · exact ih hlt hn _ _
      · -- only the last digits differ
        have heq : m / 64 = n / 64 := by omega
        rw [heq, ← List.cons_append, ← List.cons_append]
        exact List.append_left_lt (byte_cons_lt (by omega) (by omega) _ _)

theorem encode_append_lt {c d : Char} (h : c < d) (xs ys : List UInt8) :
    String.utf8EncodeChar c ++ xs < String.utf8EncodeChar d ++ ys := by
  obtain ⟨k, lead, hk, hc⟩ := exists_encoding c
  obtain ⟨l, lead', hl, hd⟩ := exists_encoding d
  have hlt : c.val.toNat < d.val.toNat := h
  rw [hc, hd, List.cons_append, List.cons_append]
  obtain ⟨hbyte, ⟨rfl, rfl⟩ | hfirst⟩ := hk.first_lt hl hlt
  · exact digits_lt hlt k hbyte xs ys
  · exact byte_cons_lt hfirst hbyte _ _

/-! ## The bytes of a text -/

/-- The bytes of a text. -/
def bytes (s : String) : List UInt8 := s.toByteArray.data.toList

theorem bytes_eq_flatMap (s : String) : bytes s = s.toList.flatMap String.utf8EncodeChar := by
  rw [bytes, ← String.utf8Encode_toList, List.utf8Encode, List.toList_data_toByteArray]

theorem bytes_inj {a b : String} : bytes a = bytes b ↔ a = b := by
  rw [bytes, bytes, Array.toList_inj, ← ByteArray.ext_iff, String.toByteArray_inj]

theorem flatMap_encode_lt {cs ds : List Char} (h : cs < ds) :
    cs.flatMap String.utf8EncodeChar < ds.flatMap String.utf8EncodeChar := by
  induction h with
  | @nil d ds =>
      rw [List.flatMap_nil, List.flatMap_cons]
      obtain ⟨b, bs, hb⟩ := List.exists_cons_of_ne_nil (String.utf8EncodeChar_ne_nil (c := d))
      rw [hb]
      exact List.nil_lt_cons _ _
  | cons _ ih =>
      rw [List.flatMap_cons, List.flatMap_cons]
      exact List.append_left_lt ih
  | rel hlt =>
      rw [List.flatMap_cons, List.flatMap_cons]
      exact encode_append_lt hlt _ _

/-- Texts are in the order of their bytes. -/
theorem bytes_lt_bytes_iff {a b : String} : bytes a < bytes b ↔ a < b := by
  have hmono : ∀ {s t : String}, s < t → bytes s < bytes t := by
    intro s t h
    rw [bytes_eq_flatMap, bytes_eq_flatMap]
    exact flatMap_encode_lt (String.lt_iff_toList_lt.mp h)
  refine ⟨fun h => ?_, hmono⟩
  rcases lt_trichotomy a b with hab | rfl | hba
  · exact hab
  · exact absurd h (List.lt_irrefl _)
  · exact absurd (hmono hba) (List.lt_asymm h)

/-- What two texts have in common at their beginning does not count. -/
theorem bytes_append_lt_iff (p : String) {a b : String} :
    bytes (p ++ a) < bytes (p ++ b) ↔ bytes a < bytes b := by
  have happend : ∀ s, bytes (p ++ s) = bytes p ++ bytes s := by
    intro s
    simp only [bytes_eq_flatMap, String.toList_append, List.flatMap_append]
  rw [happend, happend]
  refine ⟨fun h => ?_, List.append_left_lt⟩
  generalize bytes p = common at h
  induction common with
  | nil => exact h
  | cons x xs ih =>
      rcases List.cons_lt_cons_iff.mp h with hlt | ⟨-, hlt⟩
      · exact absurd hlt (UInt8.lt_irrefl x)
      · exact ih hlt

theorem compare_eq_lt_iff {a b : String} : compare a b = .lt ↔ bytes a < bytes b :=
  compareOfLessAndEq_eq_lt.trans bytes_lt_bytes_iff.symm

end Text

/-- Strings are ordered by their bytes. -/
theorem KeyValue.compare_string (a b : String) :
    KeyValue.compare (.string a) (.string b) = Ord.compare a b := by
  simp [compare_eq_then, rank, text, amount, bytes]

end ItemStore
