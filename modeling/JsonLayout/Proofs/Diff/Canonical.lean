import JsonLayout.Proofs.Diff.Applying
import JsonLayout.Proofs.Json.Indentation
import Mathlib

/-!
# The diff from a text to its canonical form

The first and the last line of a canonical form are found nowhere else in it, so the headers of the
diff are right about the starts of hunks and about the lengths in the canonical form. They can be wrong
about the length in the old text, in the last hunk: then it ends in additions, and the last line of the
old text is one of the canonical form before its last one.
-/

namespace JsonLayout.Diff

open Json (format)
open Line (oldTexts newTexts)

variable {s out : String}

theorem along_of_format (h : format s = .ok out) : Along ReadHunk.Stands [] (linesBetween s out)
    ((Hunk.ofScript (between s out)).map Hunk.read) := by
  obtain ⟨hs, hout⟩ := Json.ne_empty_of_format h
  exact Hunk.ofScript_along (between_turns s out) (between_records (Json.endsOnce_of_format h))
    (Json.lines_ne_nil hs) (Json.lines_ne_nil hout)

/-- A hunk that says how many old lines it has, unless it comes last and ends in additions. -/
def ReadHunk.Counts (_before : List Line) (h : ReadHunk) (after : List Line) : Prop :=
  h.newLength = (newTexts h.lines).length ∧
    (h.oldLength = (oldTexts h.lines).length ∨ EndsInAdditions h.lines ∧ after = [])

theorem mem_dropLast_of_endsInAdditions (before : List Line) {lines : List Line}
    (h : EndsInAdditions lines) :
    ∃ l, (oldTexts (before ++ lines)).getLast? = some l ∧ l ∈ (newTexts (before ++ lines)).dropLast := by
  obtain ⟨front, kept, added, hadded, rfl⟩ := h
  have hlines : before ++ (front ++ ⟨.kept, kept⟩ :: added.map (Line.mk .added)) =
      (before ++ front) ++ ([kept].map (Line.mk .kept) ++ added.map (Line.mk .added)) := by simp
  rw [hlines, oldTexts, newTexts]
  generalize before ++ front = context
  simp only [Line.without_append, Line.without_map]
  refine ⟨kept, by simp, ?_⟩
  rw [List.dropLast_append_of_ne_nil (by simp)]
  simp [List.dropLast_cons_of_ne_nil hadded]

/-- In the diff from a text to its canonical form, every hunk counts its lines in the canonical form
right, and its old lines too unless it comes last and ends in additions right after a kept line. -/
theorem hunks_counted (h : format s = .ok out) (hne : s ≠ out) : ∃ lines hunks,
    Patch.hunks? (Text.lines (unified s out)) = some hunks ∧
    oldTexts lines = Text.lines s ∧ newTexts lines = Text.lines out ∧
    Along ReadHunk.Counts [] lines hunks ∧
    ((∀ l ∈ (Text.lines s).getLast?, l ∉ (Text.lines out).dropLast) →
      ∀ h ∈ hunks, h.oldLength = (oldTexts h.lines).length) := by
  have halong := along_of_format h
  refine ⟨linesBetween s out, _, ?_, oldTexts_linesBetween s out, newTexts_linesBetween s out,
    halong.mono fun _ _ _ _ hstands => ⟨hstands.newLength, hstands.oldLength⟩, ?_⟩
  · rw [lines_unified hne, hunks?_diffLines]
  · intro hlast g hg
    obtain ⟨front, back, hlines, hstands⟩ := halong.exists_of_mem hg
    refine hstands.oldLength.resolve_right ?_
    rintro ⟨hadditions, rfl⟩
    rw [List.append_nil] at hlines
    obtain ⟨l, hl, hmem⟩ := mem_dropLast_of_endsInAdditions front hadditions
    rw [← hlines, oldTexts_linesBetween] at hl
    rw [← hlines, newTexts_linesBetween] at hmem
    exact hlast l hl hmem

theorem hunks_counted_array :
    let s := "[\r\n  1,\n  []]"
    let out := "[\n  1,\n  []\n]\n"
    (format s = .ok out ∧ s ≠ out ∧
      ∀ l ∈ (Text.lines s).getLast?, l ∉ (Text.lines out).dropLast) ∧
    ∃ lines hunks, Patch.hunks? (Text.lines (unified s out)) = some hunks ∧
      oldTexts lines = Text.lines s ∧ newTexts lines = Text.lines out ∧
      Along ReadHunk.Counts [] lines hunks ∧
      ∀ h ∈ hunks, h.oldLength = (oldTexts h.lines).length := by
  intro s out
  have hformat : format s = .ok out := by unfold s out; rfl
  have hne : s ≠ out := by unfold s out; decide
  have hlast : ∀ l ∈ (Text.lines s).getLast?, l ∉ (Text.lines out).dropLast := by
    unfold s out
    decide +kernel
  obtain ⟨lines, hunks, hread, hold, hnew, hcounts, hall⟩ := hunks_counted hformat hne
  exact ⟨⟨hformat, hne, hlast⟩, lines, hunks, hread, hold, hnew, hcounts, hall hlast⟩

theorem exists_hunks?_array : ∃ lines,
    Patch.hunks? (diffLines "[\r\n  1,\n  []]" "[\n  1,\n  []\n]\n") =
      some [⟨1, 3, 1, 4, lines⟩] := by
  have hscript : script 0 0 (Text.lines "[\r\n  1,\n  []]") (Text.lines "[\n  1,\n  []\n]\n") =
      [⟨.added, ["[\n"], 0, 0⟩, ⟨.removed, ["[\r\n"], 0, 1⟩, ⟨.kept, ["  1,\n"], 1, 1⟩,
        ⟨.removed, ["  []]"], 2, 2⟩, ⟨.added, ["  []\n", "]\n"], 3, 2⟩] := by
    decide +kernel
  have hbetween : between "[\r\n  1,\n  []]" "[\n  1,\n  []\n]\n" =
      [⟨.removed, ["[\r\n"], 0, 1⟩, ⟨.added, ["[\n"], 0, 0⟩, ⟨.kept, ["  1,\n"], 1, 1⟩,
        ⟨.removed, ["  []]"], 2, 2⟩, ⟨.added, ["  []\n", "]\n"], 3, 2⟩] := by
    rw [between, hscript]
    cbv
  rw [hunks?_diffLines, hbetween]
  exact ⟨_, rfl⟩

/-- Here an addition slides down past a removed line, and its record of the old text stays behind. It
is the last edit, so the hunk is said to end too early. -/
theorem hunk_without_all_old_lines :
    let s := "[[[\n      11\n]],[[1]]\n    ]\n"
    let out := "[\n  [\n    [\n      11\n    ]\n  ],\n  [\n    [\n      1\n    ]\n  ]\n]\n"
    (format s = .ok out ∧ s ≠ out) ∧ ∃ h, Patch.hunks? (Text.lines (unified s out)) = some [h] ∧
      h.oldLength = 3 ∧ (oldTexts h.lines).length = 4 := by
  intro s out
  have hscript : script 0 0 (Text.lines s) (Text.lines out) =
      [⟨.added, ["[\n", "  [\n", "    [\n"], 0, 0⟩, ⟨.removed, ["[[[\n"], 0, 3⟩,
        ⟨.kept, ["      11\n"], 1, 3⟩, ⟨.added, ["    ]\n"], 2, 4⟩, ⟨.added, ["  ],\n"], 2, 5⟩,
        ⟨.added, ["  [\n", "    [\n", "      1\n"], 2, 6⟩, ⟨.removed, ["]],[[1]]\n"], 2, 9⟩,
        ⟨.kept, ["    ]\n"], 3, 9⟩, ⟨.added, ["  ]\n"], 4, 10⟩, ⟨.added, ["]\n"], 4, 11⟩] := by
    unfold s out
    decide +kernel
  have hbetween : between s out =
      [⟨.removed, ["[[[\n"], 0, 3⟩, ⟨.added, ["[\n", "  [\n", "    [\n"], 0, 0⟩,
        ⟨.kept, ["      11\n"], 1, 3⟩, ⟨.removed, ["]],[[1]]\n"], 2, 9⟩, ⟨.kept, ["    ]\n"], 3, 4⟩,
        ⟨.added, ["  ],\n", "  [\n", "    [\n", "      1\n", "    ]\n", "  ]\n", "]\n"], 3, 5⟩] := by
    rw [between, hscript]
    cbv
  have hformat : format s = .ok out := by unfold s out; rfl
  have hne : s ≠ out := by unfold s out; decide
  refine ⟨⟨hformat, hne⟩, ?_⟩
  rw [lines_unified hne, hunks?_diffLines, hbetween]
  exact ⟨_, rfl, rfl, rfl⟩

/-- A hunk that says where it starts in both texts. With no old lines by its own count, it names the
old line before it. -/
def ReadHunk.Placed (before : List Line) (h : ReadHunk) (_after : List Line) : Prop :=
  h.newStart = (newTexts before).length + 1 ∧
    h.oldStart = (oldTexts before).length + if h.oldLength = 0 then 0 else 1

theorem apply_of_format (h : format s = .ok out)
    (hlength : ∀ h ∈ (Hunk.ofScript (between s out)).map Hunk.read, h.oldLength ≠ 0) :
    Patch.apply (Text.lines s) (diffLines s out) = some out := by
  refine apply_eq ((along_of_format h).mono fun before after g hg hstands => ?_)
  have hstart := hstands.oldStart
  rwa [if_neg (hlength g hg)] at hstart

/-- In the diff from a text to its canonical form, every hunk starts where it says, and applying the
diff to the text gives the canonical form, unless a hunk comes out without old lines. -/
theorem hunks_placed (h : format s = .ok out) (hne : s ≠ out) : ∃ lines hunks,
    Patch.hunks? (Text.lines (unified s out)) = some hunks ∧
    oldTexts lines = Text.lines s ∧ newTexts lines = Text.lines out ∧
    Along ReadHunk.Placed [] lines hunks ∧
    ((∀ h ∈ hunks, h.oldLength ≠ 0) →
      Patch.apply (Text.lines s) (Text.lines (unified s out)) = some out) := by
  refine ⟨linesBetween s out, _, ?_, oldTexts_linesBetween s out, newTexts_linesBetween s out,
    (along_of_format h).mono fun _ _ _ _ hstands => ⟨hstands.newStart, hstands.oldStart⟩, ?_⟩
  · rw [lines_unified hne, hunks?_diffLines]
  · rw [lines_unified hne]
    exact apply_of_format h

theorem hunks_placed_array :
    let s := "[\r\n  1,\n  []]"
    let out := "[\n  1,\n  []\n]\n"
    (format s = .ok out ∧ s ≠ out) ∧
    ∃ lines hunks, Patch.hunks? (Text.lines (unified s out)) = some hunks ∧
      oldTexts lines = Text.lines s ∧ newTexts lines = Text.lines out ∧
      Along ReadHunk.Placed [] lines hunks ∧
      (∀ h ∈ hunks, h.oldLength ≠ 0) ∧
      Patch.apply (Text.lines s) (Text.lines (unified s out)) = some out := by
  intro s out
  have hformat : format s = .ok out := by unfold s out; rfl
  have hne : s ≠ out := by unfold s out; decide
  obtain ⟨lines, hunks, hread, hold, hnew, hplaced, happly⟩ := hunks_placed hformat hne
  have hlength : ∀ h ∈ hunks, h.oldLength ≠ 0 := by
    obtain ⟨ls, harray⟩ := exists_hunks?_array
    rw [lines_unified hne, harray] at hread
    obtain rfl := Option.some.inj hread
    simp
  exact ⟨⟨hformat, hne⟩, lines, hunks, hread, hold, hnew, hplaced, hlength, happly hlength⟩

/-- The last hunk has three lines of the old text but is said to have none, and so it is said to start
one line too early. -/
theorem hunk_without_old_lines :
    let s := "[[\n    [\n1,1,1,1,\n1,1]\n],[[\n1,1,1,1,1]],\n      1,\n      1,\n      1,\n      1,\n      1,\n      1\n    ]\n"
    let out := "[\n  [\n    [\n      1,\n      1,\n      1,\n      1,\n      1,\n      1\n    ]\n  ],\n  [\n    [\n      1,\n      1,\n      1,\n      1,\n      1\n    ]\n  ],\n  1,\n  1,\n  1,\n  1,\n  1,\n  1\n]\n"
    (format s = .ok out ∧ s ≠ out) ∧
      Patch.apply (Text.lines s) (Text.lines (unified s out)) ≠ some out ∧
      ∃ first last, Patch.hunks? (Text.lines (unified s out)) = some [first, last] ∧
        last.oldStart = 10 ∧ last.oldLength = 0 ∧ (oldTexts last.lines).length = 3 ∧
        ¬ Along ReadHunk.Starts [] (linesBetween s out) [first, last] := by
  intro s out
  have hold : Text.lines s = ["[[\n", "    [\n", "1,1,1,1,\n", "1,1]\n", "],[[\n", "1,1,1,1,1]],\n",
      "      1,\n", "      1,\n", "      1,\n", "      1,\n", "      1,\n", "      1\n", "    ]\n"] := by
    unfold s
    decide +kernel
  have hnew : Text.lines out = ["[\n", "  [\n", "    [\n", "      1,\n", "      1,\n", "      1,\n",
      "      1,\n", "      1,\n", "      1\n", "    ]\n", "  ],\n", "  [\n", "    [\n", "      1,\n",
      "      1,\n", "      1,\n", "      1,\n", "      1\n", "    ]\n", "  ],\n", "  1,\n", "  1,\n",
      "  1,\n", "  1,\n", "  1,\n", "  1\n", "]\n"] := by
    unfold out
    decide +kernel
  have hscript : script 0 0 (Text.lines s) (Text.lines out) =
      [⟨.added, ["[\n"], 0, 0⟩, ⟨.removed, ["[[\n"], 0, 1⟩, ⟨.added, ["  [\n"], 1, 1⟩,
        ⟨.kept, ["    [\n"], 1, 2⟩, ⟨.added, ["      1,\n", "      1,\n", "      1,\n"], 2, 3⟩,
        ⟨.removed, ["1,1,1,1,\n", "1,1]\n"], 2, 6⟩, ⟨.added, ["      1,\n"], 4, 6⟩,
        ⟨.removed, ["],[[\n", "1,1,1,1,1]],\n"], 4, 7⟩, ⟨.kept, ["      1,\n"], 6, 7⟩,
        ⟨.added, ["      1\n"], 7, 8⟩, ⟨.added, ["    ]\n", "  ],\n", "  [\n"], 7, 9⟩,
        ⟨.added, ["    [\n"], 7, 12⟩,
        ⟨.kept, ["      1,\n", "      1,\n", "      1,\n", "      1,\n", "      1\n", "    ]\n"], 7, 13⟩,
        ⟨.added, ["  ],\n"], 13, 19⟩, ⟨.added, ["  1,\n"], 13, 20⟩,
        ⟨.added, ["  1,\n", "  1,\n", "  1,\n", "  1,\n", "  1\n", "]\n"], 13, 21⟩] := by
    rw [hold, hnew]
    decide +kernel
  have hbetween : between s out =
      [⟨.removed, ["[[\n"], 0, 1⟩, ⟨.added, ["[\n", "  [\n"], 0, 0⟩, ⟨.kept, ["    [\n"], 1, 2⟩,
        ⟨.removed, ["1,1,1,1,\n", "1,1]\n", "],[[\n", "1,1,1,1,1]],\n"], 2, 6⟩,
        ⟨.kept, ["      1,\n", "      1,\n", "      1,\n", "      1,\n", "      1,\n", "      1\n",
          "    ]\n"], 6, 3⟩,
        ⟨.added, ["  ],\n", "  [\n", "    [\n", "      1,\n", "      1,\n", "      1,\n", "      1,\n",
          "      1\n", "    ]\n", "  ],\n", "  1,\n", "  1,\n", "  1,\n", "  1,\n", "  1,\n", "  1\n",
          "]\n"], 9, 10⟩] := by
    rw [between, hscript]
    cbv
  have hformat : format s = .ok out := by unfold s out; cbv
  have hne : s ≠ out := by unfold s out; decide +kernel
  have happly : Patch.apply (Text.lines s) (diffLines s out) ≠ some out := by
    rw [diffLines, hbetween, hold]
    decide +kernel
  refine ⟨⟨hformat, hne⟩, lines_unified hne ▸ happly, ?_⟩
  have halong := mt apply_eq happly
  rw [hbetween] at halong
  rw [lines_unified hne, hunks?_diffLines, hbetween]
  exact ⟨_, _, rfl, rfl, rfl, rfl, halong⟩

/-- With lines that end after line feeds only, too, applying the diff gives the canonical form unless a
hunk comes out without old lines, if there is a line feed after every carriage return of the text. -/
theorem apply_feedLines (h : format s = .ok out) (hne : s ≠ out) (hfed : Text.Fed s.toList) :
    ∃ hunks, Patch.hunks? (Text.feedLines (unified s out)) = some hunks ∧
    ((∀ h ∈ hunks, h.oldLength ≠ 0) →
      Patch.apply (Text.feedLines s) (Text.feedLines (unified s out)) = some out) := by
  rw [feedLines_unified hne hfed (Json.fed_of_format h), Text.feedLines_eq hfed]
  exact ⟨_, hunks?_diffLines s out, apply_of_format h⟩

theorem apply_feedLines_array :
    let s := "[\r\n  1,\n  []]"
    let out := "[\n  1,\n  []\n]\n"
    (format s = .ok out ∧ s ≠ out ∧ Text.Fed s.toList) ∧
    ∃ hunks, Patch.hunks? (Text.feedLines (unified s out)) = some hunks ∧
      (∀ h ∈ hunks, h.oldLength ≠ 0) ∧
      Patch.apply (Text.feedLines s) (Text.feedLines (unified s out)) = some out := by
  intro s out
  have hformat : format s = .ok out := by unfold s out; rfl
  have hne : s ≠ out := by unfold s out; decide
  have hfed : Text.Fed s.toList := by simp [s, Text.fed_cons, Text.fed_nil]
  obtain ⟨hunks, hread, happly⟩ := apply_feedLines hformat hne hfed
  have hlength : ∀ h ∈ hunks, h.oldLength ≠ 0 := by
    obtain ⟨ls, harray⟩ := exists_hunks?_array
    rw [feedLines_unified hne hfed (Json.fed_of_format hformat), harray] at hread
    obtain rfl := Option.some.inj hread
    simp
  exact ⟨⟨hformat, hne, hfed⟩, hunks, hread, hlength, happly hlength⟩

/-- A removed line that ends in a lone carriage return is printed without a line feed, and the line
printed after it is taken for a part of it. -/
theorem apply_feedLines_lone_return :
    let s := "[\n  1,\r  2\n]\n"
    let out := "[\n  1,\n  2\n]\n"
    (format s = .ok out ∧ s ≠ out) ∧
      Patch.apply (Text.feedLines s) (Text.feedLines (unified s out)) = none := by
  intro s out
  have hscript : script 0 0 (Text.lines s) (Text.lines out) =
      [⟨.kept, ["[\n"], 0, 0⟩, ⟨.added, ["  1,\n"], 1, 1⟩, ⟨.removed, ["  1,\r"], 1, 2⟩,
        ⟨.kept, ["  2\n", "]\n"], 2, 2⟩] := by
    unfold s out
    decide +kernel
  have hbetween : between s out =
      [⟨.kept, ["[\n"], 0, 0⟩, ⟨.removed, ["  1,\r"], 1, 2⟩, ⟨.added, ["  1,\n"], 1, 1⟩,
        ⟨.kept, ["  2\n", "]\n"], 2, 2⟩] := by
    rw [between, hscript]
    cbv
  have hformat : format s = .ok out := by unfold s out; rfl
  have hne : s ≠ out := by unfold s out; decide
  refine ⟨⟨hformat, hne⟩, ?_⟩
  rw [unified, hbetween]
  unfold s
  decide +kernel

end JsonLayout.Diff
