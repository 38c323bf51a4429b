import JsonLayout.Json.Format
import JsonLayout.Proofs.Json.Completeness
import JsonLayout.Proofs.Json.Soundness

/-!
# What is accepted

Formatting succeeds on the texts of the grammar that do not nest too deep, and on no others.
-/

namespace JsonLayout.Json

theorem Tree.parse_eq_ok_iff {tree : Tree} {s : List Char} :
    Tree.parse s = .ok tree ↔ Spelled (.element tree) s ∧ tree.NestsWithin maxDepth :=
  ⟨Tree.spelled_of_parse, fun h => h.1.parse_eq_ok h.2⟩

theorem format_eq_ok_iff {s out : String} :
    format s = .ok out ↔ ∃ tree, Tree.parse (Text.trim s.toList) = .ok tree ∧ tree.layout = out := by
  unfold format
  cases Tree.parse (Text.trim s.toList) with
  | ok tree => simp
  | error cause => simp

/-- A text can be formatted if and only if, once trimmed, it is a JSON text in which no array or
object stands inside 512 others. -/
theorem exists_format_eq_ok_iff (s : String) :
    (∃ out, format s = .ok out) ↔
      ∃ tree, Spelled (.element tree) (Text.trim s.toList) ∧ tree.NestsWithin 512 := by
  constructor
  · rintro ⟨out, h⟩
    obtain ⟨tree, hparse, -⟩ := format_eq_ok_iff.mp h
    exact ⟨tree, Tree.parse_eq_ok_iff.mp hparse⟩
  · rintro ⟨tree, h⟩
    exact ⟨tree.layout, format_eq_ok_iff.mpr ⟨tree, Tree.parse_eq_ok_iff.mpr h, rfl⟩⟩

end JsonLayout.Json
