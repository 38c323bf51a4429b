import JsonLayout.Proofs.Json.Bytes
import JsonLayout.Proofs.Text.Utf8

/-!
# Bytes as texts

Bytes are taken as the text that they are the UTF-8 of. If there is none, the error says how long
their longest beginning is for which there is one, and nothing else about them matters.
-/

namespace JsonLayout.Json

open Text (WellFormed)

variable {bytes : ByteArray}

theorem fromUTF8?_eq_none (h : ¬ WellFormed bytes.data.toList) : String.fromUTF8? bytes = none := by
  have hnot : ¬ bytes.IsValidUTF8 := by
    rintro ⟨text, rfl⟩
    refine h (Text.wellFormed_iff.2 ⟨String.ofList text, ?_⟩)
    exact String.toByteArray_ofList
  rw [String.fromUTF8?, dif_neg hnot]

theorem formatBytes_of_not_wellFormed (h : ¬ WellFormed bytes.data.toList) :
    formatBytes bytes = .error (.notUtf8 (Text.validUpTo bytes)) := by
  rw [formatBytes, fromUTF8?_eq_none h]

/-- Bytes are formatted as the text that they encode. There is such a text if and only if they are
well-formed UTF-8; otherwise the error gives the length of their longest beginning that is. -/
theorem formatBytes_decodes (bytes : ByteArray) :
    (∀ text : String, text.toByteArray = bytes → formatBytes bytes = format text) ∧
      (WellFormed bytes.data.toList ↔ ∃ text : String, text.toByteArray = bytes) ∧
      (¬ WellFormed bytes.data.toList →
        ∃ s, s <+: bytes.data.toList ∧ WellFormed s ∧
          (∀ t, t <+: bytes.data.toList → WellFormed t → t.length ≤ s.length) ∧
          formatBytes bytes = .error (.notUtf8 s.length)) := by
  refine ⟨?_, Text.wellFormed_iff, fun h => ?_⟩
  · rintro text rfl
    exact formatBytes_toByteArray text
  · obtain ⟨s, hs, hwell, hlength⟩ := Text.exists_wellFormed_validUpToFrom bytes 0
    rw [Nat.zero_add] at hlength
    refine ⟨s, hs, hwell, fun t ht hwell => ?_, ?_⟩
    · have hle := Text.add_length_le_validUpToFrom hwell (i := 0) ht
      rwa [Nat.zero_add, ← hlength] at hle
    · rw [formatBytes_of_not_wellFormed h, hlength]
      rfl

/-- A blank and what is no JSON, before the first two bytes of a character with three. -/
theorem formatBytes_decodes_truncated :
    let bytes : ByteArray := ⟨#[0x20, 0x5d, 0xc3, 0xa9, 0xe2, 0x82]⟩
    ¬ WellFormed bytes.data.toList ∧
      ∃ s, s <+: bytes.data.toList ∧ WellFormed s ∧ s.length = 4 ∧
        formatBytes bytes = .error (.notUtf8 s.length) := by
  intro bytes
  have hvalid : Text.validUpToFrom bytes 0 = 4 := by decide +kernel
  have h : ¬ WellFormed bytes.data.toList := fun h => by
    have hle := Text.add_length_le_validUpToFrom h (i := 0) List.prefix_rfl
    rw [hvalid] at hle
    contradiction
  obtain ⟨s, hs, hwell, -, hformat⟩ := (formatBytes_decodes bytes).2.2 h
  refine ⟨h, s, hs, hwell, ?_, hformat⟩
  have hsame := (formatBytes_of_not_wellFormed h).symm.trans hformat
  simpa [Text.validUpTo, hvalid, eq_comm] using hsame

end JsonLayout.Json
