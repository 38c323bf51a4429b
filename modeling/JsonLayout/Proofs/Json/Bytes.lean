import JsonLayout.Proofs.Json.RoundTrip

/-!
# Canonical bytes

Bytes are canonical if formatting gives them back. What formatting gives always is.
-/

namespace JsonLayout.Json

def IsCanonical (bytes : ByteArray) : Prop :=
  ∃ out, formatBytes bytes = .ok out ∧ out.toByteArray = bytes

theorem isCanonical_iff {bytes : ByteArray} {out : String} (h : formatBytes bytes = .ok out) :
    IsCanonical bytes ↔ out.toByteArray = bytes := by
  simp [IsCanonical, h]

instance : DecidablePred IsCanonical := fun bytes =>
  match h : formatBytes bytes with
  | .ok out => decidable_of_iff (out.toByteArray.data = bytes.data)
      (ByteArray.ext_iff.symm.trans (isCanonical_iff h).symm)
  | .error _ => .isFalse fun ⟨_, hformat, _⟩ => nomatch h.symm.trans hformat

/-- Bytes that have a canonical form are those of a text. -/
theorem exists_text_of_formatBytes {bytes : ByteArray} {out : String}
    (h : formatBytes bytes = .ok out) : ∃ text : String, bytes = text.toByteArray ∧
      format text = .ok out := by
  unfold formatBytes String.fromUTF8? at h
  split at h
  · rename_i text htext
    split at htext
    · obtain rfl := Option.some.inj htext
      exact ⟨_, rfl, h⟩
    · cases htext
  · cases h

theorem fromUTF8?_toByteArray (s : String) : String.fromUTF8? s.toByteArray = some s := by
  rw [String.fromUTF8?, dif_pos s.isValidUTF8]
  rfl

theorem formatBytes_toByteArray (s : String) : formatBytes s.toByteArray = format s := by
  rw [formatBytes, fromUTF8?_toByteArray]

theorem format_of_format {s out : String} (h : format s = .ok out) : format out = .ok out := by
  obtain ⟨tree, hparse, rfl⟩ := format_eq_ok_iff.1 h
  have hspelled := Tree.wellSpelled_of_parse hparse
  have hdepth := (Tree.spelled_of_parse hparse).2
  exact format_eq_ok_iff.2 ⟨tree, hspelled.parse_trim_layout hdepth, rfl⟩

theorem isCanonical_of_formatBytes {bytes : ByteArray} {out : String}
    (h : formatBytes bytes = .ok out) : IsCanonical out.toByteArray := by
  refine ⟨out, ?_, rfl⟩
  rw [formatBytes_toByteArray]
  unfold formatBytes at h
  split at h
  · exact format_of_format h
  · cases h

end JsonLayout.Json
