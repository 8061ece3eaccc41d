import Mathlib.Data.String.Basic

/-!
# The order of texts is the order of their bytes

Texts compare character by character. The encoding of characters as bytes keeps their order and none is the beginning of
another, so it comes to the same to compare byte by byte.
-/

namespace RuleWalk.Text

/-- The bytes of a text in its encoding. -/
def bytes (s : String) : List Nat :=
  s.toUTF8.data.toList.map UInt8.toNat

/-- The bytes of a character. -/
def charBytes (c : Char) : List Nat :=
  (String.utf8EncodeChar c).map UInt8.toNat

theorem bytes_eq_flatMap (s : String) : bytes s = s.toList.flatMap charBytes := by
  rw [bytes, String.toUTF8_eq_toByteArray, ← String.utf8Encode_toList, List.utf8Encode,
    List.toList_data_toByteArray, List.map_flatMap]
  rfl

/-- The encoding in numbers: up to four digits to the base 64, the first marked by how many there are. -/
theorem charBytes_eq (c : Char) : charBytes c =
    if c.toNat ≤ 0x7f then [c.toNat]
    else if c.toNat ≤ 0x7ff then [c.toNat / 64 % 32 + 192, c.toNat % 64 + 128]
    else if c.toNat ≤ 0xffff then [c.toNat / 4096 % 16 + 224, c.toNat / 64 % 64 + 128, c.toNat % 64 + 128]
    else [c.toNat / 262144 % 8 + 240, c.toNat / 4096 % 64 + 128, c.toNat / 64 % 64 + 128, c.toNat % 64 + 128] := by
  unfold charBytes String.utf8EncodeChar
  simp only [Char.toNat]
  generalize c.val.toNat = v
  split
  · simp
    omega
  · split
    · simp
      omega
    · split
      · simp
        omega
      · simp
        omega

/-- Of two numbers the smaller has the smaller last digit, or is smaller without it. -/
theorem lt_cases_digit {v w : Nat} (h : v < w) : v / 64 < w / 64 ∨ v / 64 = w / 64 ∧ v % 64 < w % 64 := by
  omega

/-- The bytes of a smaller character come first, whatever follows. -/
theorem charBytes_append_lt {c d : Char} (h : c < d) (xs ys : List Nat) : charBytes c ++ xs < charBytes d ++ ys := by
  have hlt : c.toNat < d.toNat := h
  have hd : d.toNat < 0x110000 := by
    have hvalid := d.valid
    simp only [UInt32.isValidChar, Nat.isValidChar] at hvalid
    show d.val.toNat < _
    omega
  rw [charBytes_eq, charBytes_eq]
  generalize c.toNat = v at *
  generalize d.toNat = w at *
  have hdigits : v / 262144 < w / 262144 ∨ v / 262144 = w / 262144 ∧ (v / 4096 % 64 < w / 4096 % 64 ∨
      v / 4096 % 64 = w / 4096 % 64 ∧ (v / 64 % 64 < w / 64 % 64 ∨ v / 64 % 64 = w / 64 % 64 ∧ v % 64 < w % 64)) := by
    rcases lt_cases_digit hlt with h | ⟨h, h0⟩
    · rcases lt_cases_digit h with h | ⟨h, h1⟩
      · rcases lt_cases_digit h with h | ⟨h, h2⟩ <;> omega
      · omega
    · omega
  have hfirst : v / 262144 % 8 = v / 262144 ∧ w / 262144 % 8 = w / 262144 := by omega
  split_ifs <;> simp only [List.cons_append, List.nil_append, List.cons_lt_cons_iff] <;> omega

theorem charBytes_ne_nil (c : Char) : charBytes c ≠ [] := by
  rw [charBytes_eq]
  split_ifs <;> simp

theorem flatMap_charBytes_lt {cs ds : List Char} (h : cs < ds) : cs.flatMap charBytes < ds.flatMap charBytes := by
  induction h with
  | nil =>
    rename_i d ds
    obtain ⟨b, bs, hb⟩ := List.exists_cons_of_ne_nil (charBytes_ne_nil d)
    rw [List.flatMap_nil, List.flatMap_cons, hb]
    exact List.nil_lt_cons _ _
  | rel hlt => exact charBytes_append_lt hlt _ _
  | cons _ ih => exact List.Lex.append_left _ ih _

/-- A text comes before another exactly when its bytes do. -/
theorem bytes_lt_iff {s t : String} : bytes s < bytes t ↔ s < t := by
  rw [bytes_eq_flatMap, bytes_eq_flatMap, String.lt_iff_toList_lt]
  constructor
  · intro hlt
    rcases lt_trichotomy s.toList t.toList with h | h | h
    · exact h
    · rw [h] at hlt
      exact absurd hlt (lt_irrefl _)
    · exact absurd hlt (lt_asymm (flatMap_charBytes_lt h))
  · exact flatMap_charBytes_lt

theorem bytes_le_iff {s t : String} : bytes s ≤ bytes t ↔ s ≤ t := by
  rw [← not_lt, bytes_lt_iff, not_lt]

/-- Texts of the same bytes are the same. -/
theorem bytes_inj {s t : String} (h : bytes s = bytes t) : s = t :=
  le_antisymm (bytes_le_iff.1 h.le) (bytes_le_iff.1 h.ge)

end RuleWalk.Text
