import JsonLayout.Proofs.Text.Offsets
import Mathlib.Data.List.TakeWhile
import Mathlib.Tactic.Common

/-!
# What trimming takes away

Blanks around a text are taken away, all of them and nothing else.
-/

namespace JsonLayout.Text

/-- Neither the first nor the last character is blank, and there is one. -/
inductive Solid : List Char → Prop
  | ends {c d : Char} {s : List Char} (first : (s ++ [d]).head? = some c)
      (hc : isBlank c = false) (hd : isBlank d = false) : Solid (s ++ [d])

theorem dropWhile_eq_self_of_head? {p : Char → Bool} {s : List Char} {c : Char}
    (hs : s.head? = some c) (hc : p c = false) : s.dropWhile p = s := by
  cases s with
  | nil => contradiction
  | cons d s =>
    cases hs
    simp [hc]

/-- Blanks around a solid text are all that trimming takes away. -/
theorem Solid.trim_append {s w w' : List Char} (h : Solid s) (hw : ∀ c ∈ w, isBlank c = true)
    (hw' : ∀ c ∈ w', isBlank c = true) : trim (w ++ s ++ w') = s := by
  obtain ⟨first, hc, hd⟩ := h
  rename_i c d s
  have hstart : trimStart (w ++ (s ++ [d]) ++ w') = s ++ [d] ++ w' := by
    rw [trimStart, List.append_assoc, List.dropWhile_append_of_pos hw]
    exact dropWhile_eq_self_of_head? (by rw [List.head?_append, first]; rfl) hc
  have hend : trimEnd (s ++ [d] ++ w') = s ++ [d] := by
    rw [trimEnd, List.reverse_append, List.dropWhile_append_of_pos (by simpa using hw'),
      dropWhile_eq_self_of_head? (by simp) hd, List.reverse_reverse]
  rw [trim, hstart, hend]

theorem Solid.of_forall {s : List Char} (hne : s ≠ []) (h : ∀ c ∈ s, isBlank c = false) :
    Solid s := by
  obtain ⟨t, d, rfl⟩ : ∃ t d, s = t ++ [d] :=
    ⟨s.dropLast, s.getLast hne, (List.dropLast_concat_getLast hne).symm⟩
  exact .ends (List.head?_eq_some_head hne) (h _ (List.head_mem hne)) (h d (by simp))

/-- A text between two characters that are not blank. -/
theorem Solid.between {c d : Char} (s : List Char) (hc : isBlank c = false)
    (hd : isBlank d = false) : Solid (c :: s ++ [d]) :=
  .ends rfl hc hd

/-- What trimming takes away are blanks, and those in front have the length that it counts. -/
theorem exists_trim (s : List Char) : ∃ w w', s = w ++ trim s ++ w' ∧ (∀ c ∈ w, isBlank c = true) ∧
    (∀ c ∈ w', isBlank c = true) ∧ byteLength w = leadingBytes s := by
  refine ⟨s.takeWhile isBlank, ((trimStart s).reverse.takeWhile isBlank).reverse, ?_, ?_, ?_, rfl⟩
  · rw [List.append_assoc, trim, trimEnd, ← List.reverse_append, List.takeWhile_append_dropWhile,
      List.reverse_reverse, trimStart, List.takeWhile_append_dropWhile]
  · exact fun c hc => List.mem_takeWhile_imp hc
  · exact fun c hc => List.mem_takeWhile_imp (List.mem_reverse.mp hc)

theorem trim_blanks_append {w : List Char} (hw : ∀ c ∈ w, isBlank c = true) (s : List Char) :
    trim (w ++ s) = trim s := by
  rw [trim, trimStart, List.dropWhile_append_of_pos hw, trim, trimStart]

theorem trim_of_forall {s : List Char} (hs : ∀ c ∈ s, isBlank c = true) : trim s = [] := by
  rw [trim, trimStart, List.dropWhile_eq_nil_iff.2 hs]
  rfl

theorem trim_append_blanks (s : List Char) {w : List Char} (hw : ∀ c ∈ w, isBlank c = true) :
    trim (s ++ w) = trim s := by
  by_cases hs : ∀ c ∈ s, isBlank c = true
  · rw [trim_of_forall hs, trim_of_forall (List.forall_mem_append.2 ⟨hs, hw⟩)]
  · have hne : (s.dropWhile isBlank).isEmpty = false :=
      List.isEmpty_eq_false_iff.2 (mt List.dropWhile_eq_nil_iff.1 hs)
    have hstart : trimStart (s ++ w) = trimStart s ++ w := by
      rw [trimStart, List.dropWhile_append, hne, trimStart]
      rfl
    rw [trim, hstart, trimEnd, List.reverse_append,
      List.dropWhile_append_of_pos (by simpa using hw), trim, trimEnd]

theorem leadingBytes_blanks_append {w : List Char} (hw : ∀ c ∈ w, isBlank c = true)
    (s : List Char) : leadingBytes (w ++ s) = byteLength w + leadingBytes s := by
  rw [leadingBytes, List.takeWhile_append_of_pos hw, byteLength_append, leadingBytes]

/-- What comes after a character that is not blank is not counted. -/
theorem leadingBytes_append {s : List Char} (hs : ¬ ∀ c ∈ s, isBlank c = true) (t : List Char) :
    leadingBytes (s ++ t) = leadingBytes s := by
  have hshort : (s.takeWhile isBlank).length ≠ s.length := fun hlength => by
    have hall : s.takeWhile isBlank = s := (List.takeWhile_prefix isBlank).eq_of_length hlength
    exact hs (List.takeWhile_eq_self_iff.1 hall)
  rw [leadingBytes, List.takeWhile_append, if_neg hshort, leadingBytes]

end JsonLayout.Text
