import JsonLayout.Proofs.Diff.Blocks
import JsonLayout.Proofs.Diff.Patch
import JsonLayout.Proofs.Text.Joining

/-!
# A diff is read as it is printed

Cut into lines again, a diff is its title, its headers and its marked lines, and what is read off them
are the hunks as they were.
-/

namespace JsonLayout.Diff

namespace Line

/-- The lines that a diff prints for a line: the line after its mark, and a note if it has no end. -/
def diffLines (l : Line) : List String :=
  if Text.endsLine l.text then [mark l.kind ++ l.text]
  else [mark l.kind ++ l.text ++ "\n", "\\ No newline at end of file\n"]

theorem join_diffLines (l : Line) : String.join l.diffLines = l.printed := by
  rw [← markedLine_eq, markedLine, diffLines]
  split
  · simp
  · have hnote : "\n\\ No newline at end of file\n" = "\n" ++ "\\ No newline at end of file\n" := rfl
    rw [hnote]
    simp [String.append_assoc]

variable {l : Line} {rest : List String}

theorem unbroken_mark (kind : EditKind) : Text.Unbroken (mark kind).toList := by
  cases kind <;> simp [Text.Unbroken, mark]

/-- What is printed for a line has an end of its own, the line's or a line feed. -/
theorem whole_diffLines {endings : List (List Char)}
    (hends : ∀ ending ∈ endings, ending ∈ Text.lineEnds)
    (hfeed : ['\n'] ∈ endings) (h : Text.Cut ([] :: endings) l.text) :
    ∀ line ∈ l.diffLines, Text.Whole endings line := by
  obtain ⟨body, ending, hbody, hending, hline⟩ := h
  have hmarked : Text.Unbroken ((mark l.kind).toList ++ body) :=
    Text.unbroken_append.2 ⟨unbroken_mark l.kind, hbody⟩
  have hne : (mark l.kind).toList ++ body ≠ [] := by cases l.kind <;> simp [mark]
  rcases List.mem_cons.1 hending with rfl | hending
  · rw [List.append_nil] at hline
    have hopen := Text.endsLine_of_unbroken (hline ▸ hbody)
    simp only [diffLines, hopen, Bool.false_eq_true, if_false, List.forall_mem_cons]
    refine ⟨⟨_, _, hmarked, hne, hfeed, by simp [hline]⟩, ?_, by simp⟩
    exact ⟨"\\ No newline at end of file".toList, _, by simp [Text.Unbroken], by simp, hfeed, rfl⟩
  · have hended := Text.endsLine_of_ending (hends _ hending) hline
    simp only [diffLines, hended, if_true, List.forall_mem_singleton]
    exact ⟨_, _, hmarked, hne, hending, by simp [hline]⟩

theorem header?_mark (kind : EditKind) (text : List Char) :
    Patch.header? ((mark kind).toList ++ text) = none := by
  cases kind <;> rfl

theorem isNote_mark (kind : EditKind) (text : String) : Patch.isNote (mark kind ++ text) = false := by
  cases kind <;> simp [Patch.isNote, mark]

theorem marked?_mark (noted : Bool) (kind : EditKind) (text : List Char) :
    Patch.marked? noted ((mark kind).toList ++ text) =
      some ⟨kind, String.ofList (if noted then text.dropLast else text)⟩ := by
  cases kind <;> rfl

/-- No note stands at the start, which would be about the line before. -/
def NoNote (diff : List String) : Prop := ∀ line ∈ diff.head?, Patch.isNote line = false

theorem noNote_diffLines_append (h : NoNote rest) (ls : List Line) :
    NoNote (ls.flatMap diffLines ++ rest) := by
  cases ls with
  | nil => exact h
  | cons l ls =>
    intro line hline
    rw [List.flatMap_cons, diffLines] at hline
    split at hline
    · obtain rfl : mark l.kind ++ l.text = line := by simpa using hline
      exact isNote_mark _ _
    · obtain rfl : mark l.kind ++ (l.text ++ "\n") = line := by
        simpa [String.append_assoc] using hline
      exact isNote_mark _ _

theorem readFrom?_diffLines (h : NoNote rest) {lines : List Line} {hunks : List ReadHunk}
    (hrest : Patch.readFrom? rest = some (lines, hunks)) :
    Patch.readFrom? (l.diffLines ++ rest) = some (l :: lines, hunks) := by
  unfold diffLines
  split
  · have hnote : rest.head?.any Patch.isNote = false := by
      cases rest with
      | nil => rfl
      | cons line rest => simpa using h line rfl
    simp [Patch.readFrom?, hrest, isNote_mark, header?_mark, marked?_mark, hnote]
  · have hnote : Patch.isNote "\\ No newline at end of file\n" = true := by
      simp [Patch.isNote]
    simp [Patch.readFrom?, hrest, isNote_mark, header?_mark, marked?_mark, hnote, String.append_assoc]

theorem readFrom?_flatMap_diffLines (h : NoNote rest) {lines : List Line} {hunks : List ReadHunk}
    (hrest : Patch.readFrom? rest = some (lines, hunks)) (ls : List Line) :
    Patch.readFrom? (ls.flatMap diffLines ++ rest) = some (ls ++ lines, hunks) := by
  induction ls with
  | nil => exact hrest
  | cons l ls ih =>
    rw [List.flatMap_cons, List.append_assoc]
    exact readFrom?_diffLines (noNote_diffLines_append h ls) ih

end Line

namespace Hunk

/-- The place of the first block, for one of the texts. -/
def start (absent : EditKind) (h : Hunk) : Nat := (h.head?.map (Block.place absent)).getD 0

/-- Where the last block ends by its own account. -/
def stop (absent : EditKind) (h : Hunk) : Nat :=
  (h.getLast?.map fun b => b.place absent + (b.without absent).length).getD 0

/-- What a reader makes of a hunk. -/
def read (h : Hunk) : ReadHunk :=
  { oldStart := Patch.startNumber (h.start .added) (h.stop .added)
    oldLength := h.stop .added - h.start .added
    newStart := Patch.startNumber (h.start .removed) (h.stop .removed)
    newLength := h.stop .removed - h.start .removed
    lines := h.lines }

def diffLines (h : Hunk) : List String := h.header :: h.lines.flatMap Line.diffLines

variable {h : Hunk}

theorem header_toList (hne : h ≠ []) : h.header.toList =
    '@' :: '@' :: ' ' :: '-' :: ((rangeText (h.start .added) (h.stop .added)).toList ++
      ' ' :: '+' :: ((rangeText (h.start .removed) (h.stop .removed)).toList ++
        [' ', '@', '@', '\n'])) := by
  obtain ⟨first, rest, rfl⟩ := List.exists_cons_of_ne_nil hne
  have hlast : (first :: rest).getLast? = some (rest.getLastD first) := by
    rw [List.getLast?_cons, List.getLastD_eq_getLast?]
  have htext : ∀ s : String, toString s = s := fun _ => rfl
  simp [header, headerText, start, stop, hlast, Block.place, Block.oldLines_eq, Block.newLines_eq,
    htext]

theorem header?_header (hne : h ≠ []) : Patch.header? h.header.toList =
    some ((h.read.oldStart, h.read.oldLength), (h.read.newStart, h.read.newLength)) := by
  simp [header_toList hne, Patch.header?, Patch.range?_rangeText, read]

theorem unbroken_digits (n : Nat) : Text.Unbroken (Nat.toDigits 10 n) := by
  intro c hc
  have hdigit : c.isDigit = true := Nat.isDigit_of_mem_toDigits (by decide) (by decide) hc
  constructor <;> rintro rfl <;> simp at hdigit

theorem unbroken_rangeText (start stop : Nat) : Text.Unbroken (rangeText start stop).toList := by
  rw [Patch.rangeText_toList]
  split <;> simp [Text.unbroken_append, Text.unbroken_cons, unbroken_digits]

theorem whole_header (hne : h ≠ []) : Text.Whole [['\n']] h.header := by
  refine ⟨"@@ -".toList ++ (rangeText (h.start .added) (h.stop .added)).toList ++ " +".toList ++
    (rangeText (h.start .removed) (h.stop .removed)).toList ++ " @@".toList, ['\n'], ?_, ?_, ?_, ?_⟩
  · simp [Text.unbroken_append, Text.unbroken_cons, Text.unbroken_nil, unbroken_rangeText]
  · simp
  · simp
  · simp [header_toList hne]

theorem isNote_header (hne : h ≠ []) : Patch.isNote h.header = false := by
  simp [Patch.isNote, header_toList hne]

theorem readFrom?_diffLines {hunks : List Hunk} (hne : ∀ h ∈ hunks, h ≠ []) :
    Line.NoNote (hunks.flatMap diffLines) ∧
      Patch.readFrom? (hunks.flatMap diffLines) = some ([], hunks.map read) := by
  induction hunks with
  | nil => exact ⟨by simp [Line.NoNote], rfl⟩
  | cons h hunks ih =>
    obtain ⟨hh, hrest⟩ := List.forall_mem_cons.1 hne
    obtain ⟨hnote, hread⟩ := ih hrest
    have hlines := Line.readFrom?_flatMap_diffLines hnote hread h.lines
    refine ⟨by simp [Line.NoNote, diffLines, isNote_header hh], ?_⟩
    rw [List.append_nil] at hlines
    simp [diffLines, Patch.readFrom?, hlines, isNote_header hh, header?_header hh, read]

theorem mem_texts_of_ofScript {s : Script} {a b : List String} (hs : s.Turns a b) {l : Line}
    (hh : h ∈ ofScript s) (hl : l ∈ h.lines) : l.text ∈ a ∨ l.text ∈ b := by
  have hshown : l ∈ Line.shown ((Block.ofScript s).flatMap Block.lines) := by
    rw [← ofScript_shows hs.solid]
    exact List.mem_flatMap.2 ⟨h, hh, hl⟩
  have hmem : l ∈ (Block.ofScript s).flatMap Block.lines := by
    obtain ⟨⟨_, i⟩, hi, rfl⟩ := List.mem_map.1 hshown
    exact List.mem_of_getElem? (List.mem_zipIdx_iff_getElem?.1 (List.mem_filter.1 hi).1)
  rw [← hs.old, ← hs.new, Script.oldLines_eq, Script.newLines_eq,
    ← Block.without_ofScript (by decide), ← Block.without_ofScript (by decide)]
  simp only [Line.without, List.mem_map, List.mem_filter]
  by_cases hkind : l.kind = .added
  · exact .inr ⟨l, ⟨hmem, by simp [hkind]⟩, rfl⟩
  · exact .inl ⟨l, ⟨hmem, by simp [hkind]⟩, rfl⟩

theorem ne_nil_of_ofScript {s : Script} (hs : s.Solid) (hh : h ∈ ofScript s) : h ≠ [] := by
  obtain ⟨l, hl, -⟩ := ofScript_changed hs h hh
  rintro rfl
  simp at hl

end Hunk

/-- The lines of a diff: its title, and the lines of its hunks. -/
def diffLines (old new : String) : List String :=
  "--- Original\n" :: "+++ Formatted\n" :: (Hunk.ofScript (between old new)).flatMap Hunk.diffLines

variable {old new : String}

theorem ofScript_between_ne_nil (hne : old ≠ new) : Hunk.ofScript (between old new) ≠ [] := by
  intro hempty
  have hshows := Hunk.ofScript_shows (between_turns old new).solid
  rw [hempty] at hshows
  have htexts : Line.oldTexts (linesBetween old new) = Line.newTexts (linesBetween old new) :=
    Line.oldTexts_eq_newTexts hshows.symm
  rw [oldTexts_linesBetween, newTexts_linesBetween] at htexts
  have hold := (Text.lines_cutInto old).join
  have hnew := (Text.lines_cutInto new).join
  rw [htexts, hnew] at hold
  exact hne (by simpa using hold.symm)

theorem join_flatMap {α : Type} (f : α → List String) (xs : List α) :
    String.join (xs.flatMap f) = String.join (xs.map fun x => String.join (f x)) := by
  induction xs with
  | nil => rfl
  | cons x xs ih => simp [ih]

theorem unified_eq_join (hne : old ≠ new) : unified old new = String.join (diffLines old new) := by
  have htext : Hunk.text = fun h => String.join h.diffLines := by
    funext h
    simp [Hunk.text_eq, Hunk.diffLines, join_flatMap, Line.join_diffLines]
  rw [unified_eq, if_neg (ofScript_between_ne_nil hne), diffLines, String.join_cons,
    String.join_cons, join_flatMap, htext, ← String.append_assoc]
  rfl

/-- All lines of a diff are whole, with the ends that the lines of its texts have. -/
theorem whole_of_mem_diffLines {endings : List (List Char)}
    (hends : ∀ ending ∈ endings, ending ∈ Text.lineEnds) (hfeed : ['\n'] ∈ endings)
    (hold : ∀ l ∈ Text.lines old, Text.Cut ([] :: endings) l)
    (hnew : ∀ l ∈ Text.lines new, Text.Cut ([] :: endings) l) :
    ∀ line ∈ diffLines old new, Text.Whole endings line := by
  have hturns := between_turns old new
  simp only [diffLines, List.forall_mem_cons, List.mem_flatMap]
  refine ⟨?_, ?_, ?_⟩
  · exact ⟨"--- Original".toList, _, by simp [Text.Unbroken], by simp, hfeed, rfl⟩
  · exact ⟨"+++ Formatted".toList, _, by simp [Text.Unbroken], by simp, hfeed, rfl⟩
  · rintro line ⟨h, hh, hline⟩
    rcases List.mem_cons.1 hline with rfl | hline
    · obtain ⟨body, ending, hbody, hne, hending, hheader⟩ :=
        Hunk.whole_header (Hunk.ne_nil_of_ofScript hturns.solid hh)
      obtain rfl := List.mem_singleton.1 hending
      exact ⟨body, _, hbody, hne, hfeed, hheader⟩
    · obtain ⟨l, hl, hline⟩ := List.mem_flatMap.1 hline
      have hcut := (Hunk.mem_texts_of_ofScript hturns hh hl).elim (hold l.text) (hnew l.text)
      exact Line.whole_diffLines hends hfeed hcut line hline

theorem lines_unified (hne : old ≠ new) : Text.lines (unified old new) = diffLines old new := by
  rw [unified_eq_join hne]
  exact Text.lines_join (whole_of_mem_diffLines (fun _ h => h) (by simp) (Text.lines_cutInto old).cut
    (Text.lines_cutInto new).cut)

/-- A reader that knows only line feeds finds the same lines if no carriage return is alone. -/
theorem feedLines_unified (hne : old ≠ new) (hold : Text.Fed old.toList) (hnew : Text.Fed new.toList) :
    Text.feedLines (unified old new) = diffLines old new := by
  rw [unified_eq_join hne]
  exact Text.feedLines_join (whole_of_mem_diffLines (by simp) (by simp)
    ((Text.lines_cutInto old).cut_of_fed hold) ((Text.lines_cutInto new).cut_of_fed hnew))

theorem hunks?_diffLines (old new : String) : Patch.hunks? (diffLines old new) =
    some ((Hunk.ofScript (between old new)).map Hunk.read) := by
  have hread := Hunk.readFrom?_diffLines fun h hh =>
    Hunk.ne_nil_of_ofScript (between_turns old new).solid hh
  simp [Patch.hunks?, diffLines, hread.2]

end JsonLayout.Diff
