import JsonLayout.Diff.Compaction
import JsonLayout.Diff.Hunk
import JsonLayout.Diff.Script
import JsonLayout.Text.Line

/-! # Unified diffs

The text of a script: for each hunk a header with its place in both texts, then its lines, each
marked as kept, removed or added. -/

namespace JsonLayout.Diff

/-- The tidied script from one text to another. -/
def between (old new : String) : Script :=
  compact (script 0 0 (Text.lines old) (Text.lines new))

/-- Lines from `start` up to `stop`, counted from one: a single line by its number, others by
number and count, an empty range by the line before it. -/
def rangeText (start stop : Nat) : String :=
  let count := stop - start
  if count = 1 then s!"{start + 1}"
  else if count = 0 then s!"{start},0"
  else s!"{start + 1},{count}"

/-- A line after its mark. A line without an end gets one, and a note that it had none. -/
def markedLine (mark line : String) : String :=
  mark ++ line ++ if Text.endsLine line then "" else "\n\\ No newline at end of file\n"

def Block.text : Block → String
  | .same _ _ lines => String.join (lines.map (markedLine " "))
  | .change _ _ removed added =>
      String.join (removed.map (markedLine "-")) ++ String.join (added.map (markedLine "+"))

/-- The header of a hunk from its first to its last block. -/
def headerText (first last : Block) : String :=
  s!"@@ -{rangeText first.old (last.old + last.oldLines.length)} " ++
  s!"+{rangeText first.new (last.new + last.newLines.length)} @@\n"

def Hunk.text : Hunk → String
  | [] => ""
  | first :: rest =>
      headerText first (rest.getLastD first) ++ String.join ((first :: rest).map Block.text)

/-- The unified diff of two texts; nothing if they are equal. -/
def unified (old new : String) : String :=
  match Hunk.ofScript (between old new) with
  | [] => ""
  | hunks => "--- Original\n+++ Formatted\n" ++ String.join (hunks.map Hunk.text)

end JsonLayout.Diff
