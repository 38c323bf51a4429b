import JsonLayout.Proofs.Json.Acceptance
import JsonLayout.Proofs.Json.Layout
import JsonLayout.Proofs.Text.Trimming

/-!
# From trees to texts and back

A tree that is laid out is read back as it was, and what has been formatted once is formatted again
without a change. Formatting a text keeps its tokens, and nothing else decides its canonical form:
only the white space between them is new.
-/

namespace JsonLayout.Json

open Text (Solid isBlank)

theorem Digit.isBlank_eq_false {c : Char} (h : Digit c) : isBlank c = false := by
  have hlow : 48 ≤ c.toNat := h.1
  have hhigh : c.toNat ≤ 57 := h.2
  simp [isBlank]
  omega

theorem NumberChar.isBlank_eq_false {c : Char} (h : NumberChar c) : isBlank c = false := by
  rcases h with h | h
  · exact h.isBlank_eq_false
  · simp only [List.mem_cons, List.not_mem_nil, or_false] at h
    rcases h with rfl | rfl | rfl | rfl | rfl <;> rfl

theorem Number.ne_nil {s : List Char} (h : Number s) : s ≠ [] := by
  obtain ⟨-, integer, -, -⟩ := h
  cases integer <;> simp

theorem Scalar.solid {s : List Char} (h : Scalar s) : Solid s := by
  cases h with
  | null => exact .between ['u', 'l'] rfl rfl
  | «true» => exact .between ['r', 'u'] rfl rfl
  | «false» => exact .between ['a', 'l', 's'] rfl rfl
  | number h => exact .of_forall h.ne_nil fun c hc => (h.numberChar c hc).isBlank_eq_false
  | string h =>
    cases h with
    | quotes => exact .between _ rfl rfl

theorem Spelled.solid {tree : Tree} {s : List Char} (h : Spelled (.value tree) s) : Solid s := by
  cases h with
  | scalar h => exact h.solid
  | emptyArray => exact .between _ rfl rfl
  | array => exact .between _ rfl rfl
  | emptyObject => exact .between _ rfl rfl
  | object => exact .between _ rfl rfl

theorem Tree.WellSpelled.trim_layout {tree : Tree} (h : tree.WellSpelled) :
    Spelled (.value tree) (Text.trim tree.layout.toList) := by
  obtain ⟨s, hs, hspelled⟩ := h.layout
  have htrim : Text.trim ([] ++ s ++ ['\n']) = s :=
    hspelled.solid.trim_append (by simp) (by simp [isBlank])
  rw [hs, ← List.nil_append s, htrim]
  exact hspelled

theorem Spelled.element_of_value {tree : Tree} {s : List Char} (h : Spelled (.value tree) s) :
    Spelled (.element tree) s := by
  simpa using Spelled.element Ws.nil h Ws.nil

/-- A well-spelled tree that does not nest too deep is read back from its layout. -/
theorem Tree.WellSpelled.parse_trim_layout {tree : Tree} (h : tree.WellSpelled)
    (hdepth : tree.NestsWithin maxDepth) :
    Tree.parse (Text.trim tree.layout.toList) = .ok tree :=
  h.trim_layout.element_of_value.parse_eq_ok hdepth

theorem Tree.wellSpelled_of_parse {tree : Tree} {s : List Char} (h : Tree.parse s = .ok tree) :
    tree.WellSpelled :=
  (Tree.spelled_of_parse h).1.wellSpelled

/-- Parsing undoes printing, on every tree that parsing gives and on every other one that is spelled
and nested as those are. So formatting twice is formatting once. -/
theorem parse_layout_and_format_idempotent :
    (∀ tree : Tree, tree.WellSpelled → tree.NestsWithin 512 →
      Tree.parse (Text.trim tree.layout.toList) = .ok tree) ∧
    (∀ s tree, Tree.parse s = .ok tree → tree.WellSpelled ∧ tree.NestsWithin 512) ∧
    ∀ s out, format s = .ok out → format out = .ok out := by
  refine ⟨?_, ?_, ?_⟩
  · intro tree h hdepth
    exact h.parse_trim_layout hdepth
  · intro s tree h
    exact ⟨Tree.wellSpelled_of_parse h, (Tree.spelled_of_parse h).2⟩
  · intro s out h
    obtain ⟨tree, hparse, rfl⟩ := format_eq_ok_iff.mp h
    have hspelled := Tree.wellSpelled_of_parse hparse
    have hdepth := (Tree.spelled_of_parse hparse).2
    exact format_eq_ok_iff.mpr ⟨tree, hspelled.parse_trim_layout hdepth, rfl⟩

theorem parse_layout_and_format_idempotent_nested :
    let s := "[\x7b\"a\" : [ ], \"a\":-0.5e+1\x7d ,null]"
    let tree := Tree.array
      [.object [("\"a\"", .array []), ("\"a\"", .scalar "-0.5e+1")], .scalar "null"]
    let out := "[\n  \x7b\n    \"a\": [],\n    \"a\": -0.5e+1\n  \x7d,\n  null\n]\n"
    (tree.WellSpelled ∧ tree.NestsWithin 512) ∧
      Tree.parse (Text.trim tree.layout.toList) = .ok tree ∧
      format s = .ok out ∧ format out = .ok out := by
  intro s tree out
  have hread := parse_layout_and_format_idempotent.2.1 s.toList tree (by unfold s tree; rfl)
  have hformat : format s = .ok out := by
    unfold s out
    rfl
  exact ⟨hread, parse_layout_and_format_idempotent.1 tree hread.1 hread.2, hformat,
    parse_layout_and_format_idempotent.2.2 s out hformat⟩

/-- The tree of a text that can be formatted spells both the text and its canonical form. -/
theorem exists_spelled_of_format {s out : String} (h : format s = .ok out) :
    ∃ tree, Spelled (.element tree) (Text.trim s.toList) ∧ Spelled (.element tree) out.toList := by
  obtain ⟨tree, hparse, rfl⟩ := format_eq_ok_iff.mp h
  obtain ⟨body, hbody, hspelled⟩ := (Tree.wellSpelled_of_parse hparse).layout
  refine ⟨tree, (Tree.spelled_of_parse hparse).1, ?_⟩
  rw [hbody]
  exact hspelled.element_of_value.append_ws (by simp) (by simp [Ws])

/-- Formatting loses, adds, reorders and respells nothing: the tokens stay, one by one, and a text
and its canonical form are the same once the white space outside of strings is deleted. -/
theorem format_keeps_tokens {s out : String} (h : format s = .ok out) :
    squeeze (Text.trim s.toList) = squeeze out.toList ∧
      ∃ tokens, LaidOut tokens (Text.trim s.toList) ∧ LaidOut tokens out.toList := by
  obtain ⟨tree, hs, hout⟩ := exists_spelled_of_format h
  refine ⟨?_, _, hs.laidOut, hout.laidOut⟩
  rw [hs.laidOut.squeeze_eq, hout.laidOut.squeeze_eq]

theorem format_keeps_tokens_repeated_key :
    let s := " \x7b\"a\" : [1 ,\"b \\\" c\"],\"a\":\t[ ] \x7d"
    let out := "\x7b\n  \"a\": [\n    1,\n    \"b \\\" c\"\n  ],\n  \"a\": []\n\x7d\n"
    format s = .ok out ∧ squeeze (Text.trim s.toList) = squeeze out.toList ∧
      ∃ tokens, LaidOut tokens (Text.trim s.toList) ∧ LaidOut tokens out.toList :=
  ⟨rfl, format_keeps_tokens rfl⟩

/-- What is left of a text when white space is deleted is read as the text is. No two tokens are
glued together by that: next to a scalar stands a character that no scalar goes on with. -/
theorem Tree.parse_squeeze {tree : Tree} {s : List Char} (h : Tree.parse s = .ok tree) :
    Tree.parse (squeeze s) = .ok tree := by
  obtain ⟨hspelled, hnests⟩ := Tree.spelled_of_parse h
  rw [hspelled.laidOut.squeeze_eq]
  exact hspelled.flatten_tokens.parse_eq_ok hnests

/-- The layout that a text has is of no influence: texts have the same canonical form if and only
if they are the same once they are trimmed and white space outside of strings is deleted. -/
theorem format_eq_iff_squeeze_eq {s₁ s₂ out₁ out₂ : String} (h₁ : format s₁ = .ok out₁)
    (h₂ : format s₂ = .ok out₂) :
    format s₁ = format s₂ ↔ squeeze (Text.trim s₁.toList) = squeeze (Text.trim s₂.toList) := by
  constructor
  · intro hsame
    rw [h₁, h₂] at hsame
    rw [(format_keeps_tokens h₁).1, (format_keeps_tokens h₂).1, Except.ok.inj hsame]
  · intro hsqueeze
    obtain ⟨tree₁, hparse₁, rfl⟩ := format_eq_ok_iff.mp h₁
    obtain ⟨tree₂, hparse₂, rfl⟩ := format_eq_ok_iff.mp h₂
    have hread : Tree.parse (squeeze (Text.trim s₁.toList)) = .ok tree₂ := by
      rw [hsqueeze]
      exact Tree.parse_squeeze hparse₂
    rw [Tree.parse_squeeze hparse₁] at hread
    rw [h₁, h₂, Except.ok.inj hread]

theorem format_eq_iff_squeeze_eq_spread :
    let s₁ := "[1 ,\"a b\"]"
    let s₂ := "\u3000[\r\n\t1,\"a b\" ]"
    let out := "[\n  1,\n  \"a b\"\n]\n"
    (format s₁ = .ok out ∧ format s₂ = .ok out) ∧
      (format s₁ = format s₂ ↔
        squeeze (Text.trim s₁.toList) = squeeze (Text.trim s₂.toList)) :=
  ⟨⟨rfl, rfl⟩, format_eq_iff_squeeze_eq rfl rfl⟩

end JsonLayout.Json
