import JsonLayout.Text.Utf8
import Mathlib.Data.List.Forall2
import Mathlib.Tactic.Common

/-!
# What is UTF-8

The bytes of a character are those of a row of the table of well-formed byte sequences in the Unicode
standard, and those of a text are one such sequence after another. Where decoding gets stuck is the
end of the longest beginning that is well-formed.
-/

namespace JsonLayout.Text

/-- The ranges of the bytes of a character. Those of the second bytes leave out what is longer than
it need be, the surrogates, and all that is above U+10FFFF. -/
def characterRows : List (List (Nat × Nat)) :=
  [[(0x00, 0x7f)],
   [(0xc2, 0xdf), (0x80, 0xbf)],
   [(0xe0, 0xe0), (0xa0, 0xbf), (0x80, 0xbf)],
   [(0xe1, 0xec), (0x80, 0xbf), (0x80, 0xbf)],
   [(0xed, 0xed), (0x80, 0x9f), (0x80, 0xbf)],
   [(0xee, 0xef), (0x80, 0xbf), (0x80, 0xbf)],
   [(0xf0, 0xf0), (0x90, 0xbf), (0x80, 0xbf), (0x80, 0xbf)],
   [(0xf1, 0xf3), (0x80, 0xbf), (0x80, 0xbf), (0x80, 0xbf)],
   [(0xf4, 0xf4), (0x80, 0x8f), (0x80, 0xbf), (0x80, 0xbf)]]

def IsCharacter (s : List UInt8) : Prop :=
  ∃ row ∈ characterRows, List.Forall₂ (fun range b => range.1 ≤ b.toNat ∧ b.toNat ≤ range.2) row s

inductive WellFormed : List UInt8 → Prop
  | nil : WellFormed []
  | cons {s t : List UInt8} (h : IsCharacter s) (ht : WellFormed t) : WellFormed (s ++ t)

/-! The rows by their length, with the limits for second bytes set apart. -/

theorem length_of_isCharacter {s : List UInt8} (h : IsCharacter s) : s.length ∈ [1, 2, 3, 4] := by
  have hrows : ∀ row ∈ characterRows, row.length ∈ [1, 2, 3, 4] := by decide
  obtain ⟨row, hrow, hs⟩ := h
  rw [← hs.length_eq]
  exact hrows row hrow

theorem isCharacter_one_iff {a : UInt8} : IsCharacter [a] ↔ a.toNat ≤ 0x7f := by
  simp [IsCharacter, characterRows]

theorem isCharacter_two_iff {a b : UInt8} :
    IsCharacter [a, b] ↔ (0xc2 ≤ a.toNat ∧ a.toNat ≤ 0xdf) ∧ 0x80 ≤ b.toNat ∧ b.toNat ≤ 0xbf := by
  simp [IsCharacter, characterRows]

theorem isCharacter_three_iff {a b c : UInt8} :
    IsCharacter [a, b, c] ↔
      (0xe0 ≤ a.toNat ∧ a.toNat ≤ 0xef) ∧ (0x80 ≤ b.toNat ∧ b.toNat ≤ 0xbf) ∧
        (0x80 ≤ c.toNat ∧ c.toNat ≤ 0xbf) ∧ (a.toNat = 0xe0 → 0xa0 ≤ b.toNat) ∧
        (a.toNat = 0xed → b.toNat ≤ 0x9f) := by
  simp [IsCharacter, characterRows]
  omega

theorem isCharacter_four_iff {a b c d : UInt8} :
    IsCharacter [a, b, c, d] ↔
      (0xf0 ≤ a.toNat ∧ a.toNat ≤ 0xf4) ∧ (0x80 ≤ b.toNat ∧ b.toNat ≤ 0xbf) ∧
        (0x80 ≤ c.toNat ∧ c.toNat ≤ 0xbf) ∧ (0x80 ≤ d.toNat ∧ d.toNat ≤ 0xbf) ∧
        (a.toNat = 0xf0 → 0x90 ≤ b.toNat) ∧ (a.toNat = 0xf4 → b.toNat ≤ 0x8f) := by
  simp [IsCharacter, characterRows]
  omega

/-! The bytes of the rows are those that characters are encoded in. -/

theorem isCharacter_utf8EncodeChar (c : Char) : IsCharacter (String.utf8EncodeChar c) := by
  have hvalid : c.val.toNat < 0xd800 ∨ 0xdfff < c.val.toNat ∧ c.val.toNat < 0x110000 := c.valid
  unfold String.utf8EncodeChar
  generalize c.val.toNat = n at hvalid ⊢
  dsimp only
  split_ifs with hone htwo hthree
  · rw [isCharacter_one_iff, UInt8.toNat_ofNat']
    omega
  · rw [isCharacter_two_iff, UInt8.toNat_ofNat', UInt8.toNat_ofNat']
    omega
  · rw [isCharacter_three_iff, UInt8.toNat_ofNat', UInt8.toNat_ofNat', UInt8.toNat_ofNat']
    omega
  · rw [isCharacter_four_iff, UInt8.toNat_ofNat', UInt8.toNat_ofNat', UInt8.toNat_ofNat',
      UInt8.toNat_ofNat']
    omega

theorem exists_char {n : Nat} (h : n < 0xd800 ∨ 0xdfff < n ∧ n < 0x110000) :
    ∃ c : Char, c.val.toNat = n :=
  ⟨Char.ofNatAux n h, rfl⟩

theorem exists_char_of_one {a : UInt8} (h : IsCharacter [a]) :
    ∃ x, String.utf8EncodeChar x = [a] := by
  have ha := isCharacter_one_iff.1 h
  obtain ⟨x, hx⟩ := exists_char (n := a.toNat) (by omega)
  refine ⟨x, ?_⟩
  simp only [String.utf8EncodeChar, hx, ha, if_true, UInt8.ofNat_toNat]

theorem exists_char_of_two {a b : UInt8} (h : IsCharacter [a, b]) :
    ∃ x, String.utf8EncodeChar x = [a, b] := by
  have hbytes := isCharacter_two_iff.1 h
  obtain ⟨x, hx⟩ := exists_char (n := (a.toNat - 0xc0) * 64 + (b.toNat - 0x80)) (by omega)
  have ha : x.val.toNat / 64 % 32 + 192 = a.toNat := by omega
  have hb : x.val.toNat % 64 + 128 = b.toNat := by omega
  have hlow : ¬ x.val.toNat ≤ 127 := by omega
  have hhigh : x.val.toNat ≤ 2047 := by omega
  refine ⟨x, ?_⟩
  simp only [String.utf8EncodeChar, hlow, hhigh, if_false, if_true, ha, hb, UInt8.ofNat_toNat]

theorem exists_char_of_three {a b c : UInt8} (h : IsCharacter [a, b, c]) :
    ∃ x, String.utf8EncodeChar x = [a, b, c] := by
  have hbytes := isCharacter_three_iff.1 h
  obtain ⟨x, hx⟩ := exists_char
    (n := (a.toNat - 0xe0) * 4096 + (b.toNat - 0x80) * 64 + (c.toNat - 0x80)) (by omega)
  have ha : x.val.toNat / 4096 % 16 + 224 = a.toNat := by omega
  have hb : x.val.toNat / 64 % 64 + 128 = b.toNat := by omega
  have hc : x.val.toNat % 64 + 128 = c.toNat := by omega
  have hone : ¬ x.val.toNat ≤ 127 := by omega
  have hlow : ¬ x.val.toNat ≤ 2047 := by omega
  have hhigh : x.val.toNat ≤ 65535 := by omega
  refine ⟨x, ?_⟩
  simp only [String.utf8EncodeChar, hone, hlow, hhigh, if_false, if_true, ha, hb, hc,
    UInt8.ofNat_toNat]

theorem exists_char_of_four {a b c d : UInt8} (h : IsCharacter [a, b, c, d]) :
    ∃ x, String.utf8EncodeChar x = [a, b, c, d] := by
  have hbytes := isCharacter_four_iff.1 h
  obtain ⟨x, hx⟩ := exists_char
    (n := (a.toNat - 0xf0) * 262144 + (b.toNat - 0x80) * 4096 + (c.toNat - 0x80) * 64 +
      (d.toNat - 0x80)) (by omega)
  have ha : x.val.toNat / 262144 % 8 + 240 = a.toNat := by omega
  have hb : x.val.toNat / 4096 % 64 + 128 = b.toNat := by omega
  have hc : x.val.toNat / 64 % 64 + 128 = c.toNat := by omega
  have hd : x.val.toNat % 64 + 128 = d.toNat := by omega
  have hone : ¬ x.val.toNat ≤ 127 := by omega
  have htwo : ¬ x.val.toNat ≤ 2047 := by omega
  have hthree : ¬ x.val.toNat ≤ 65535 := by omega
  refine ⟨x, ?_⟩
  simp only [String.utf8EncodeChar, hone, htwo, hthree, if_false, ha, hb, hc, hd,
    UInt8.ofNat_toNat]

theorem isCharacter_iff {s : List UInt8} :
    IsCharacter s ↔ ∃ c, String.utf8EncodeChar c = s := by
  constructor
  · intro h
    have hlength := length_of_isCharacter h
    match s with
    | [] => simp at hlength
    | [a] => exact exists_char_of_one h
    | [a, b] => exact exists_char_of_two h
    | [a, b, c] => exact exists_char_of_three h
    | [a, b, c, d] => exact exists_char_of_four h
    | _ :: _ :: _ :: _ :: _ :: _ => simp at hlength
  · rintro ⟨c, rfl⟩
    exact isCharacter_utf8EncodeChar c

/-! Whole texts. -/

theorem wellFormed_flatMap (s : List Char) : WellFormed (s.flatMap String.utf8EncodeChar) := by
  induction s with
  | nil => exact .nil
  | cons c s ih => exact .cons (isCharacter_utf8EncodeChar c) ih

theorem WellFormed.exists_flatMap {s : List UInt8} (h : WellFormed s) :
    ∃ text : List Char, text.flatMap String.utf8EncodeChar = s := by
  induction h with
  | nil => exact ⟨[], rfl⟩
  | cons h _ ih =>
    obtain ⟨c, rfl⟩ := isCharacter_iff.1 h
    obtain ⟨text, rfl⟩ := ih
    exact ⟨c :: text, rfl⟩

/-- Well-formed bytes are those of the texts. -/
theorem wellFormed_iff {bytes : ByteArray} :
    WellFormed bytes.data.toList ↔ ∃ text : String, text.toByteArray = bytes := by
  constructor
  · intro h
    obtain ⟨text, htext⟩ := h.exists_flatMap
    refine ⟨String.ofList text, ?_⟩
    apply ByteArray.ext
    rw [String.toByteArray_ofList, List.utf8Encode, htext, List.data_toByteArray,
      Array.toArray_toList]
  · rintro ⟨text, rfl⟩
    rw [← String.utf8Encode_toList, List.utf8Encode, List.data_toByteArray]
    exact wellFormed_flatMap text.toList

/-! Decoding one character after another. -/

variable {bytes : ByteArray} {i : Nat} {c : Char}

theorem toList_extract (bytes : ByteArray) (i : Nat) :
    (bytes.extract i bytes.size).data.toList = bytes.data.toList.drop i := by
  rw [ByteArray.data_extract, Array.toList_extract, List.extract_eq_take_drop, ← ByteArray.size_data]
  exact List.take_of_length_le (by simp)

/-- Decoding takes the character that comes next. -/
theorem utf8DecodeChar?_eq_some_iff :
    bytes.utf8DecodeChar? i = some c ↔ String.utf8EncodeChar c <+: bytes.data.toList.drop i := by
  rw [ByteArray.utf8DecodeChar?_eq_utf8DecodeChar?_extract, ← toList_extract]
  generalize bytes.extract i bytes.size = rest
  constructor
  · intro h
    obtain ⟨after, rfl⟩ := ByteArray.exists_of_utf8DecodeChar?_eq_some h
    refine ⟨after.data.toList, ?_⟩
    simp [ByteArray.data_append, List.data_toByteArray]
  · rintro ⟨after, hafter⟩
    have hrest : rest = (String.utf8EncodeChar c).toByteArray ++ after.toByteArray := by
      apply ByteArray.ext
      rw [ByteArray.data_append, List.data_toByteArray, List.data_toByteArray,
        List.append_toArray, hafter]
    rw [hrest]
    exact ByteArray.utf8DecodeChar?_utf8EncodeChar_append

theorem validUpToFrom_of_decodes (h : bytes.utf8DecodeChar? i = some c) :
    validUpToFrom bytes i = validUpToFrom bytes (i + c.utf8Size) := by
  have hi : i < bytes.size := ByteArray.lt_size_of_isSome_utf8DecodeChar? (by rw [h]; rfl)
  rw [validUpToFrom, if_pos hi, h]

/-- What has been decoded is well-formed. -/
theorem exists_wellFormed_validUpToFrom (bytes : ByteArray) (i : Nat) :
    ∃ s, s <+: bytes.data.toList.drop i ∧ WellFormed s ∧ i + s.length = validUpToFrom bytes i := by
  fun_induction validUpToFrom bytes i with
  | case1 i hi c hdecode ih =>
    obtain ⟨after, hafter⟩ := utf8DecodeChar?_eq_some_iff.1 hdecode
    obtain ⟨s, hs, hwell, hlength⟩ := ih
    have hrest : bytes.data.toList.drop (i + c.utf8Size) = after := by
      rw [← List.drop_drop, ← hafter, ← String.length_utf8EncodeChar, List.drop_left]
    rw [hrest] at hs
    refine ⟨String.utf8EncodeChar c ++ s, ?_, .cons (isCharacter_utf8EncodeChar c) hwell, ?_⟩
    · rw [← hafter]
      exact (List.prefix_append_right_inj _).2 hs
    · rw [List.length_append, String.length_utf8EncodeChar, ← Nat.add_assoc, hlength]
  | case2 i hi hdecode => exact ⟨[], List.nil_prefix, .nil, rfl⟩
  | case3 i hi => exact ⟨[], List.nil_prefix, .nil, rfl⟩

/-- No well-formed beginning is longer than what has been decoded. -/
theorem add_length_le_validUpToFrom {s : List UInt8} (h : WellFormed s)
    (hs : s <+: bytes.data.toList.drop i) : i + s.length ≤ validUpToFrom bytes i := by
  induction h generalizing i with
  | nil =>
    obtain ⟨s, -, -, hlength⟩ := exists_wellFormed_validUpToFrom bytes i
    rw [← hlength]
    exact Nat.le_add_right i s.length
  | @cons _ t h _ ih =>
    obtain ⟨c, rfl⟩ := isCharacter_iff.1 h
    obtain ⟨after, hafter⟩ := hs
    have hdecode : bytes.utf8DecodeChar? i = some c :=
      utf8DecodeChar?_eq_some_iff.2 ⟨t ++ after, by rw [← hafter, List.append_assoc]⟩
    have ht : t <+: bytes.data.toList.drop (i + c.utf8Size) := by
      refine ⟨after, ?_⟩
      rw [← List.drop_drop, ← hafter, ← String.length_utf8EncodeChar, List.append_assoc,
        List.drop_left]
    rw [validUpToFrom_of_decodes hdecode, List.length_append, String.length_utf8EncodeChar,
      ← Nat.add_assoc]
    exact ih ht

end JsonLayout.Text
