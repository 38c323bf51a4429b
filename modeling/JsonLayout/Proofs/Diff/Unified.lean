import JsonLayout.Proofs.Diff.Hunk
import JsonLayout.Proofs.Text.Lines

/-!
# A unified diff shows an edit script

The hunks of a diff are the marked lines of one script between the two texts, without those far from
every change; equal texts have no diff. That there always is a script is the termination of the
division into smaller texts.
-/

namespace JsonLayout.Diff

namespace Line

def mark : EditKind → String
  | .kept => " "
  | .removed => "-"
  | .added => "+"

/-- A line as a diff prints it: after its mark, and with a note if it has no end. -/
def printed (l : Line) : String :=
  mark l.kind ++ l.text ++
    if l.text.toList.getLast? = some '\n' ∨ l.text.toList.getLast? = some '\r' then ""
    else "\n\\ No newline at end of file\n"

theorem markedLine_eq (kind : EditKind) (text : String) :
    markedLine (mark kind) text = printed ⟨kind, text⟩ := by
  unfold markedLine printed Text.endsLine
  cases text.toList.getLast? <;> simp

theorem mem_shown_of_changed {lines : List Line} {l : Line} (hl : l ∈ lines) (h : l.changed) :
    l ∈ shown lines := by
  obtain ⟨i, hi⟩ := List.getElem?_of_mem hl
  have hmem : (l, i) ∈ lines.zipIdx := List.mem_zipIdx_iff_getElem?.2 hi
  have hnear : nearChange lines i := List.any_eq_true.2 ⟨_, hmem, by simp [h]⟩
  exact List.mem_map.2 ⟨(l, i), List.mem_filter.2 ⟨hmem, hnear⟩, rfl⟩

/-- If nothing is shown, both texts are the same lines. -/
theorem oldTexts_eq_newTexts {lines : List Line} (h : shown lines = []) :
    oldTexts lines = newTexts lines := by
  have hkept : ∀ l ∈ lines, l.kind = .kept := by
    intro l hl
    by_contra hkind
    have hmem := mem_shown_of_changed hl (by simpa [changed] using hkind)
    rw [h] at hmem
    contradiction
  have hold : lines.filter (·.kind ≠ .added) = lines :=
    List.filter_eq_self.2 fun l hl => by simp [hkept l hl]
  have hnew : lines.filter (·.kind ≠ .removed) = lines :=
    List.filter_eq_self.2 fun l hl => by simp [hkept l hl]
  rw [oldTexts, newTexts, without, without, hold, hnew]

end Line

/-- The line that opens a hunk. -/
def IsHeader (header : String) : Prop :=
  ∃ oldStart oldStop newStart newStop,
    header = "@@ -" ++ rangeText oldStart oldStop ++ " +" ++ rangeText newStart newStop ++ " @@\n"

theorem isHeader_headerText (first last : Block) : IsHeader (headerText first last) := by
  refine ⟨first.old, last.old + last.oldLines.length, first.new,
    last.new + last.newLines.length, ?_⟩
  have hplus : " +" = " " ++ "+" := rfl
  simp only [headerText, hplus, toString, String.append_assoc]

theorem Block.text_eq (b : Block) : b.text = String.join (b.lines.map Line.printed) := by
  cases b <;> simp [Block.text, Block.lines, Line.ofKept, Line.ofChange, ← Line.markedLine_eq,
    Line.mark, Function.comp_def]

namespace Hunk

def header : Hunk → String
  | [] => ""
  | first :: rest => headerText first (rest.getLastD first)

theorem text_eq (h : Hunk) : h.text = h.header ++ String.join (h.lines.map Line.printed) := by
  cases h with
  | nil => rfl
  | cons first rest =>
    have hblocks : ∀ bs : List Block, String.join (bs.map Block.text) =
        String.join ((lines bs).map Line.printed) := by
      intro bs
      induction bs with
      | nil => rfl
      | cons b bs ih => simp [Block.text_eq, ih]
    rw [text, hblocks, header]

theorem ofScript_kept (lines : List String) (old new : Nat) :
    ofScript (Script.single .kept lines old new) = [] := by
  unfold Script.single
  split
  · rfl
  · have hblock : Block.ofScript [⟨.kept, lines, old, new⟩] = [.same old new lines] := rfl
    rw [ofScript, hblock, cut_kept]

end Hunk

theorem unified_eq (old new : String) :
    unified old new =
      (if Hunk.ofScript (between old new) = [] then "" else "--- Original\n+++ Formatted\n") ++
        String.join ((Hunk.ofScript (between old new)).map Hunk.text) := by
  unfold unified
  cases Hunk.ofScript (between old new) with
  | nil => rfl
  | cons h hunks => simp

theorem unified_self (s : String) : unified s s = "" := by
  rw [unified_eq, between_self, Hunk.ofScript_kept]
  rfl

theorem ofScript_eq_nil_of_unified {old new : String} (h : unified old new = "") :
    Hunk.ofScript (between old new) = [] := by
  by_contra hhunks
  rw [unified_eq, if_neg hhunks] at h
  have htitle := congrArg String.toList h
  simp at htitle

/-- The lines of the script between two texts, as the diff shows them. -/
def linesBetween (old new : String) : List Line :=
  (Block.ofScript (between old new)).flatMap Block.lines

theorem oldTexts_linesBetween (old new : String) :
    Line.oldTexts (linesBetween old new) = Text.lines old := by
  rw [← (between_turns old new).old, Script.oldLines_eq]
  exact Block.without_ofScript (by decide) _

theorem newTexts_linesBetween (old new : String) :
    Line.newTexts (linesBetween old new) = Text.lines new := by
  rw [← (between_turns old new).new, Script.newLines_eq]
  exact Block.without_ofScript (by decide) _

theorem join_linesBetween (old new : String) :
    String.join (Line.oldTexts (linesBetween old new)) = old ∧
      String.join (Line.newTexts (linesBetween old new)) = new := by
  have hold := (Text.lines_cutInto old).join
  have hnew := (Text.lines_cutInto new).join
  rw [String.ofList_toList] at hold hnew
  rw [oldTexts_linesBetween, newTexts_linesBetween]
  exact ⟨hold, hnew⟩

/-- Where there is no diff, both texts are the same. -/
theorem eq_of_unified {old new : String} (h : unified old new = "") : old = new := by
  have hshows := Hunk.ofScript_shows (between_turns old new).solid
  rw [ofScript_eq_nil_of_unified h] at hshows
  have htexts := Line.oldTexts_eq_newTexts hshows.symm
  obtain ⟨hold, hnew⟩ := join_linesBetween old new
  calc old
      = String.join (Line.oldTexts (linesBetween old new)) := hold.symm
    _ = String.join (Line.newTexts (linesBetween old new)) := congrArg String.join htexts
    _ = new := hnew

/-- A diff is one script of whole lines between its texts, printed without the lines far from every
change; it is empty exactly between equal texts. -/
theorem unified_shows_edits (original formatted : String) :
    ∃ (lines : List Line) (hunks : List (String × List Line)),
      -- the kept and removed lines are the old text, the kept and added lines the new one
      (Text.CutInto original.toList (Line.oldTexts lines) ∧
        String.join (Line.oldTexts lines) = original) ∧
      (Text.CutInto formatted.toList (Line.newTexts lines) ∧
        String.join (Line.newTexts lines) = formatted) ∧
      -- each hunk is a header and marked lines, and the hunks show the lines near a change
      unified original formatted = (if hunks = [] then "" else "--- Original\n+++ Formatted\n") ++
        String.join (hunks.map fun h => h.1 ++ String.join (h.2.map Line.printed)) ∧
      (∀ h ∈ hunks, IsHeader h.1 ∧ ∃ l ∈ h.2, l.changed) ∧
      hunks.flatMap (·.2) = Line.shown lines ∧
      (unified original formatted = "" ↔ original = formatted) := by
  have hsolid := (between_turns original formatted).solid
  have hshows := Hunk.ofScript_shows hsolid
  have hold := Text.lines_cutInto original
  have hnew := Text.lines_cutInto formatted
  have holdJoin := hold.join
  have hnewJoin := hnew.join
  rw [String.ofList_toList] at holdJoin hnewJoin
  refine ⟨linesBetween original formatted,
    (Hunk.ofScript (between original formatted)).map fun h => (h.header, h.lines), ?_, ?_, ?_, ?_,
    ?_, ?_⟩
  · rw [oldTexts_linesBetween]
    exact ⟨hold, holdJoin⟩
  · rw [newTexts_linesBetween]
    exact ⟨hnew, hnewJoin⟩
  · rw [unified_eq, show Hunk.text = _ from funext Hunk.text_eq]
    simp [Function.comp_def]
  · intro g hg
    obtain ⟨h, hh, rfl⟩ := List.mem_map.1 hg
    obtain ⟨l, hl, hchanged⟩ := Hunk.ofScript_changed hsolid h hh
    refine ⟨?_, l, hl, hchanged⟩
    cases h with
    | nil => contradiction
    | cons first rest => exact isHeader_headerText _ _
  · rw [List.flatMap_map]
    exact hshows
  · constructor
    · intro hempty
      rw [ofScript_eq_nil_of_unified hempty] at hshows
      have htexts := Line.oldTexts_eq_newTexts hshows.symm
      rw [← holdJoin, ← hnewJoin, ← oldTexts_linesBetween original formatted,
        ← newTexts_linesBetween original formatted]
      exact congrArg String.join htexts
    · rintro rfl
      exact unified_self original

end JsonLayout.Diff
