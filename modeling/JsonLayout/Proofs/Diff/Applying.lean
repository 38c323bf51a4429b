import JsonLayout.Proofs.Diff.Placement

/-!
# Applying a diff

If the headers say where the old lines of their hunks start, applying the diff to the old text gives
the new one.
-/

namespace JsonLayout.Diff

namespace Line

variable (passed : Nat) (left : List String) (mark : Char) (out : String) (rest : List String)

/-- A line of a diff passes its old line and writes its new one. -/
theorem exists_applyFrom_diffLines (l : Line) : ∃ mark',
    Patch.applyFrom passed (oldTexts [l] ++ left) mark out (l.diffLines ++ rest) =
      Patch.applyFrom (passed + (oldTexts [l]).length) left mark'
        (out ++ String.join (newTexts [l])) rest := by
  obtain ⟨kind, text⟩ := l
  unfold diffLines
  cases kind
  · refine ⟨' ', ?_⟩
    split <;> simp [Patch.applyFrom, Line.mark, oldTexts, newTexts, without]
  · refine ⟨'-', ?_⟩
    split <;> simp [Patch.applyFrom, Line.mark, oldTexts, newTexts, without]
  · refine ⟨'+', ?_⟩
    split <;> simp [Patch.applyFrom, Line.mark, oldTexts, newTexts, without]

theorem oldTexts_append (s t : List Line) : oldTexts (s ++ t) = oldTexts s ++ oldTexts t :=
  without_append .added s t

theorem newTexts_append (s t : List Line) : newTexts (s ++ t) = newTexts s ++ newTexts t :=
  without_append .removed s t

theorem exists_applyFrom_flatMap_diffLines (ls : List Line) : ∃ mark',
    Patch.applyFrom passed (oldTexts ls ++ left) mark out (ls.flatMap diffLines ++ rest) =
      Patch.applyFrom (passed + (oldTexts ls).length) left mark'
        (out ++ String.join (newTexts ls)) rest := by
  induction ls generalizing passed mark out with
  | nil => exact ⟨mark, by simp [oldTexts, newTexts]⟩
  | cons l ls ih =>
    obtain ⟨mark₁, hl⟩ := exists_applyFrom_diffLines passed (oldTexts ls ++ left) mark out
      (ls.flatMap diffLines ++ rest) l
    obtain ⟨mark₂, hls⟩ := ih (passed + (oldTexts [l]).length) mark₁
      (out ++ String.join (newTexts [l]))
    refine ⟨mark₂, ?_⟩
    rw [← List.singleton_append, oldTexts_append, newTexts_append, List.append_assoc,
      List.flatMap_append, List.append_assoc, List.flatMap_singleton, hl, hls]
    simp [Nat.add_assoc, String.append_assoc]

/-- Kept lines are in both texts. -/
theorem texts_of_kept {gap : List Line} (hgap : ∀ l ∈ gap, l.kind = .kept) :
    oldTexts gap = gap.map (·.text) ∧ newTexts gap = gap.map (·.text) := by
  have hall : ∀ absent ≠ EditKind.kept, without absent gap = gap.map (·.text) := by
    intro absent habsent
    rw [without, List.filter_eq_self.2 fun l hl => by simp [hgap l hl, habsent.symm]]
  exact ⟨hall .added (by decide), hall .removed (by decide)⟩

end Line

open Line (oldTexts newTexts)

/-- A header that gives the right start copies the lines between the hunks. -/
theorem applyFrom_header {h : Hunk} (hne : h ≠ []) {passed : Nat} {gap left : List String}
    (hstart : h.read.oldStart = passed + gap.length + 1) (mark : Char) (out : String)
    (rest : List String) : Patch.applyFrom passed (gap ++ left) mark out (h.header :: rest) =
      Patch.applyFrom (passed + gap.length) left mark (out ++ String.join gap) rest := by
  have hread : Patch.oldStart? ((rangeText (h.start .added) (h.stop .added)).toList ++
      ' ' :: '+' :: ((rangeText (h.start .removed) (h.stop .removed)).toList ++
        [' ', '@', '@', '\n'])) = some h.read.oldStart := Patch.oldStart?_rangeText _ _ _
  have hgap : h.read.oldStart - 1 - passed = gap.length := by omega
  have hleft : ¬ gap.length + left.length < gap.length := by omega
  simp [Patch.applyFrom, Hunk.header_toList hne, hread, hgap, hleft]

/-- The old lines of a hunk start where its header says. -/
def ReadHunk.Starts (before : List Line) (h : ReadHunk) (_after : List Line) : Prop :=
  h.oldStart = (oldTexts before).length + 1

theorem Along.applyFrom_eq {before lines : List Line} {hunks : List Hunk}
    (h : Along ReadHunk.Starts before lines (hunks.map Hunk.read)) (hne : ∀ h ∈ hunks, h ≠ [])
    (mark : Char) (out : String) :
    Patch.applyFrom (oldTexts before).length (oldTexts lines) mark out
      (hunks.flatMap Hunk.diffLines) = some (out ++ String.join (newTexts lines)) := by
  induction hunks generalizing before lines mark out with
  | nil =>
    cases h with
    | rest hgap =>
      obtain ⟨hold, hnew⟩ := Line.texts_of_kept hgap
      simp [Patch.applyFrom, hold, hnew]
  | cons g hunks ih =>
    obtain ⟨hg, hne'⟩ := List.forall_mem_cons.1 hne
    rw [List.map_cons] at h
    generalize hread : g.read = r at h
    cases h with
    | @hunk _ gap after _ _ hgap hstarts hrest =>
      obtain ⟨hold, hnew⟩ := Line.texts_of_kept hgap
      subst hread
      have hstart : g.read.oldStart = (oldTexts before).length + (oldTexts gap).length + 1 := by
        rw [hstarts, Line.oldTexts_append, List.length_append]
      obtain ⟨mark', hlines⟩ := Line.exists_applyFrom_flatMap_diffLines
        ((oldTexts before).length + (oldTexts gap).length) (oldTexts after) mark
        (out ++ String.join (oldTexts gap)) (hunks.flatMap Hunk.diffLines) g.lines
      have hafter := ih hrest hne' mark'
        (out ++ String.join (oldTexts gap) ++ String.join (newTexts g.lines))
      simp only [Hunk.read_lines, Line.oldTexts_append, List.length_append] at hafter ⊢
      rw [List.flatMap_cons, Hunk.diffLines, List.cons_append, List.append_assoc,
        applyFrom_header hg hstart, hlines, hafter, hold, ← hnew]
      simp [Line.newTexts_append, String.append_assoc]

theorem apply_eq {old new : String} (h : Along ReadHunk.Starts [] (linesBetween old new)
    ((Hunk.ofScript (between old new)).map Hunk.read)) :
    Patch.apply (Text.lines old) (diffLines old new) = some new := by
  have happly := h.applyFrom_eq (fun h hh =>
    Hunk.ne_nil_of_ofScript (between_turns old new).solid hh) ' ' ""
  have hnew := (Text.lines_cutInto new).join
  rw [oldTexts_linesBetween, newTexts_linesBetween, hnew, String.ofList_toList] at happly
  simpa [Patch.apply, diffLines, oldTexts] using happly

end JsonLayout.Diff
