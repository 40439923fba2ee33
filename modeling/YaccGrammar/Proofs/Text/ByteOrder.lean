import Mathlib.Data.String.Basic

/-!
# Order of bytes

Strings are compared character by character. This is the order of their bytes in UTF-8, because a
greater character has a greater byte where its encoding first differs from that of a smaller one.

## Main statement

- `lt_iff_bytes_lt`: a string comes before another exactly when its bytes do.
-/

namespace YaccGrammar.Text

/-- The bytes of a text in UTF-8. -/
def bytes (s : String) : List UInt8 := s.toUTF8.data.toList

/-- The bytes of a text are those of its characters, one after the other. -/
theorem bytes_eq (s : String) : bytes s = s.toList.flatMap String.utf8EncodeChar := by
  have h : s.toByteArray = s.toList.utf8Encode := by
    rw [← String.toByteArray_ofList, String.ofList_toList]
  rw [bytes, String.toUTF8_eq_toByteArray, h, List.utf8Encode]
  simp

/-- The digits of a number to the base 64, on which the bytes are built. -/
theorem exists_digits (v : Nat) :
    ∃ a b c d, b < 64 ∧ c < 64 ∧ d < 64 ∧ v = 262144 * a + 4096 * b + 64 * c + d :=
  ⟨v / 262144, v / 4096 % 64, v / 64 % 64, v % 64, by omega, by omega, by omega, by omega⟩

/-- The quotients of a number are told by its digits. -/
theorem div_digits {a b c d : Nat} (hb : b < 64) (hc : c < 64) (hd : d < 64) :
    (262144 * a + 4096 * b + 64 * c + d) / 262144 = a ∧
      (262144 * a + 4096 * b + 64 * c + d) / 4096 = 64 * a + b ∧
      (262144 * a + 4096 * b + 64 * c + d) / 64 = 4096 * a + 64 * b + c := by
  omega

/-- Characters that differ decide the order of what begins with them. -/
theorem utf8EncodeChar_append_lt {c d : Char} (h : c < d) (l m : List UInt8) :
    String.utf8EncodeChar c ++ l < String.utf8EncodeChar d ++ m := by
  have hlt : c.val.toNat < d.val.toNat := h
  -- no character lies above the range of four bytes
  have hmax : d.val.toNat < 0x110000 := by
    rcases d.valid with hd | hd
    · have hd : d.val.toNat < 0xD800 := hd
      omega
    · exact hd.2
  simp only [String.utf8EncodeChar]
  generalize c.val.toNat = v at hlt ⊢
  generalize d.val.toNat = w at hlt hmax ⊢
  obtain ⟨v₃, v₂, v₁, v₀, hv₂, hv₁, hv₀, rfl⟩ := exists_digits v
  obtain ⟨w₃, w₂, w₁, w₀, hw₂, hw₁, hw₀, rfl⟩ := exists_digits w
  simp only [div_digits hv₂ hv₁ hv₀, div_digits hw₂ hw₁ hw₀]
  -- one case for every two lengths of encodings
  split_ifs <;>
    simp only [List.cons_append, List.nil_append, List.cons_lt_cons_iff, UInt8.lt_iff_toNat_lt,
      ← UInt8.toNat_inj, UInt8.toNat_ofNat'] <;>
    omega

/-- Lists of characters keep their order when they are encoded. -/
theorem flatMap_utf8EncodeChar_lt {l m : List Char} (h : l < m) :
    l.flatMap String.utf8EncodeChar < m.flatMap String.utf8EncodeChar := by
  induction l generalizing m with
  | nil =>
    cases m with
    | nil => exact absurd h (List.lt_irrefl _)
    | cons d m =>
      rw [List.flatMap_nil, List.flatMap_cons]
      cases hd : String.utf8EncodeChar d with
      | nil => exact absurd hd String.utf8EncodeChar_ne_nil
      | cons b bs => exact List.nil_lt_cons b _
  | cons c l ih =>
    cases m with
    | nil => exact absurd h (List.not_lt_nil _)
    | cons d m =>
      rw [List.flatMap_cons, List.flatMap_cons]
      rcases List.cons_lt_cons_iff.mp h with hcd | ⟨rfl, hlm⟩
      · -- the first characters decide, or they are equal and the rest does
        exact utf8EncodeChar_append_lt hcd _ _
      · exact List.append_left_lt (ih hlm)

/-- A string comes before another exactly when its bytes do. -/
theorem lt_iff_bytes_lt (s t : String) : s < t ↔ bytes s < bytes t := by
  have hlt : ∀ s t : String, s < t → bytes s < bytes t := by
    intro s t h
    rw [bytes_eq, bytes_eq]
    exact flatMap_utf8EncodeChar_lt h
  constructor
  · exact hlt s t
  · -- characters are ordered totally, so the converse follows
    intro h
    rcases lt_trichotomy s t with hst | rfl | hts
    · exact hst
    · exact absurd h (List.lt_irrefl _)
    · exact absurd (hlt t s hts) (List.lt_asymm h)

end YaccGrammar.Text
