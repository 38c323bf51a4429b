import JsonLayout.Text.Blank
import Mathlib.Tactic.Common

/-!
# Byte offsets in texts

An offset is inside a text where a character starts: after the bytes of the characters before it.
-/

namespace JsonLayout.Text

/-- The character that starts at a byte offset, if one does. -/
def charAt? : List Char → Nat → Option Char
  | [], _ => none
  | c :: _, 0 => some c
  | c :: s, offset + 1 =>
      if c.utf8Size ≤ offset + 1 then charAt? s (offset + 1 - c.utf8Size) else none

theorem byteLength_append (s t : List Char) :
    byteLength (s ++ t) = byteLength s + byteLength t := by
  induction s with
  | nil => simp [byteLength]
  | cons c s ih => simp [byteLength, ih, Nat.add_assoc]

theorem charAt?_cons_add (c : Char) (s : List Char) (offset : Nat) :
    charAt? (c :: s) (c.utf8Size + offset) = charAt? s offset := by
  obtain ⟨n, hn⟩ : ∃ n, c.utf8Size + offset = n + 1 :=
    ⟨c.utf8Size + offset - 1, by have := c.utf8Size_pos; omega⟩
  rw [hn, charAt?, if_pos (by omega), ← hn, Nat.add_sub_cancel_left]

/-- A text in front moves every offset by its length. -/
theorem charAt?_append_add (p s : List Char) (offset : Nat) :
    charAt? (p ++ s) (byteLength p + offset) = charAt? s offset := by
  induction p with
  | nil => simp [byteLength]
  | cons c p ih => rw [List.cons_append, byteLength, Nat.add_assoc, charAt?_cons_add, ih]

theorem charAt?_length (p s : List Char) : charAt? (p ++ s) (byteLength p) = s.head? := by
  have h := charAt?_append_add p s 0
  rw [Nat.add_zero] at h
  rw [h]
  cases s <;> rfl

theorem exists_of_charAt? {s : List Char} {offset : Nat} {c : Char}
    (h : charAt? s offset = some c) : ∃ p r, s = p ++ c :: r ∧ byteLength p = offset := by
  induction s generalizing offset with
  | nil => cases h
  | cons d s ih =>
    cases offset with
    | zero =>
      obtain rfl := Option.some.inj h
      exact ⟨[], s, rfl, rfl⟩
    | succ n =>
      rw [charAt?] at h
      split_ifs at h with hd
      obtain ⟨p, r, rfl, hp⟩ := ih h
      refine ⟨d :: p, r, rfl, ?_⟩
      rw [byteLength, hp]
      omega

theorem charAt?_append_of_some {s : List Char} {offset : Nat} {c : Char}
    (h : charAt? s offset = some c) (t : List Char) : charAt? (s ++ t) offset = some c := by
  obtain ⟨p, r, rfl, rfl⟩ := exists_of_charAt? h
  rw [List.append_assoc]
  exact charAt?_length p (c :: r ++ t)

theorem size_utf8Encode (s : List Char) : s.utf8Encode.size = byteLength s := by
  induction s with
  | nil => rfl
  | cons c s ih =>
    rw [List.utf8Encode_cons, ByteArray.size_append, ih, byteLength, List.utf8Encode_singleton,
      List.size_toByteArray, String.length_utf8EncodeChar]

theorem byteLength_toList (s : String) : byteLength s.toList = s.utf8ByteSize := by
  rw [← size_utf8Encode, String.utf8Encode_toList]
  rfl

end JsonLayout.Text
