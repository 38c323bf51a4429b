import JsonLayout.Proofs.Diff.Printed

/-!
# What headers say

If the places of a script are in order and those of its ends too, a header says where the lines of its
hunk start in both texts and how many there are in the new text. It can be wrong about how many there
are in the old text, if the hunk comes last and ends in additions right after a kept line.
-/

namespace JsonLayout.Diff

/-- The last lines are added, and the line before them is kept. -/
def EndsInAdditions (lines : List Line) : Prop :=
  ∃ front kept added, added ≠ [] ∧
    lines = front ++ ⟨.kept, kept⟩ :: (added.map (Line.mk .added))

/-- What the header of a hunk says, next to the lines before and after the hunk. -/
structure ReadHunk.Stands (before : List Line) (h : ReadHunk) (after : List Line) : Prop where
  old_ne : Line.oldTexts h.lines ≠ []
  new_ne : Line.newTexts h.lines ≠ []
  newStart : h.newStart = (Line.newTexts before).length + 1
  newLength : h.newLength = (Line.newTexts h.lines).length
  oldStart : h.oldStart = (Line.oldTexts before).length + if h.oldLength = 0 then 0 else 1
  oldLength : h.oldLength = (Line.oldTexts h.lines).length ∨ EndsInAdditions h.lines ∧ after = []

section Along

variable {P Q : List Line → ReadHunk → List Line → Prop} {before gap lines : List Line}
  {hunks : List ReadHunk}

theorem Along.mono (h : Along P before lines hunks) (hPQ : ∀ before after, ∀ h ∈ hunks,
    P before h after → Q before h after) : Along Q before lines hunks := by
  induction h with
  | rest hgap => exact .rest hgap
  | hunk hgap hP _ ih =>
    refine .hunk hgap (hPQ _ _ _ (by simp) hP) (ih fun before after h hh => ?_)
    exact hPQ before after h (by simp [hh])

theorem Along.next {h : ReadHunk} {after : List Line} (hP : P before h after)
    (hrest : Along P (before ++ h.lines) after hunks) :
    Along P before (h.lines ++ after) (h :: hunks) := by
  have hnone : ∀ l ∈ ([] : List Line), l.kind = .kept := by simp
  simpa using Along.hunk hnone (by simpa using hP) (by simpa using hrest)

theorem Along.skip (hgap : ∀ l ∈ gap, l.kind = .kept) (h : Along P (before ++ gap) lines hunks) :
    Along P before (gap ++ lines) hunks := by
  cases h with
  | rest hrest => exact .rest fun l hl => (List.mem_append.1 hl).elim (hgap l) (hrest l)
  | @hunk _ gap' after h hunks hgap' hP hrest =>
    rw [← List.append_assoc, ← List.append_assoc]
    refine .hunk (fun l hl => (List.mem_append.1 hl).elim (hgap l) (hgap' l)) ?_ ?_
    · simpa using hP
    · simpa using hrest

theorem Along.exists_of_mem (h : Along P before lines hunks) {g : ReadHunk} (hg : g ∈ hunks) :
    ∃ front back, lines = front ++ g.lines ++ back ∧ P (before ++ front) g back := by
  induction h with
  | rest hgap => contradiction
  | @hunk before gap after h hunks hgap hP hrest ih =>
    rcases List.mem_cons.1 hg with rfl | hg
    · exact ⟨gap, after, rfl, hP⟩
    · obtain ⟨front, back, rfl, hPg⟩ := ih hg
      exact ⟨gap ++ h.lines ++ front, back, by simp, by simpa using hPg⟩

end Along

namespace Line

theorem without_ofKept {absent : EditKind} (habsent : absent ≠ .kept) (kept : List String) :
    without absent (ofKept kept) = kept := by simp [ofKept, habsent.symm]

theorem kind_of_mem_ofKept (kept : List String) : ∀ l ∈ ofKept kept, l.kind = .kept := by
  simp [ofKept]

/-- How many lines there are, those of one kind left out. -/
def count (absent : EditKind) (lines : List Line) : Nat := (without absent lines).length

variable {absent : EditKind}

@[simp] theorem count_append (s t : List Line) :
    count absent (s ++ t) = count absent s + count absent t := by simp [count]

theorem count_ofKept (habsent : absent ≠ .kept) (kept : List String) :
    count absent (ofKept kept) = kept.length := by rw [count, without_ofKept habsent]

end Line

namespace Hunk

open Block (Located AfterChange)

variable {absent : EditKind} {h : Hunk} {b : Block}

theorem start_append (hne : h ≠ []) (g : Hunk) : start absent (h ++ g) = start absent h := by
  obtain ⟨b, h, rfl⟩ := List.exists_cons_of_ne_nil hne
  rfl

theorem stop_append : stop absent (h ++ [b]) = b.place absent + (b.without absent).length := by
  simp [stop]

/-- Blocks after some lines: those that have lines in a text say where they start there, and so does
one that comes last and has none in the new text. -/
structure Ahead (before : List Line) (bs : List Block) : Prop where
  located : ∀ absent ≠ .kept, Located absent (Line.count absent before) bs
  last : ∀ front old new removed, bs = front ++ [.change old new removed []] →
    new = Line.count .removed (before ++ lines bs)

/-- A hunk that is open: `current` holds its blocks, latest first, and `bs` are the blocks to come. -/
structure Open (before : List Line) (current bs : List Block) : Prop where
  ne : current ≠ []
  start : ∀ absent ≠ .kept, Hunk.start absent current.reverse = Line.count absent before
  ahead : Ahead (before ++ lines current.reverse) bs

variable {before after : List Line} {current bs : List Block} {old new : Nat}
  {kept removed added : List String}

theorem Ahead.push (h : Ahead before (b :: bs)) : Ahead (before ++ b.lines) bs where
  located absent habsent := by
    rw [Line.count_append]
    exact (h.located absent habsent).2
  last front old new removed hbs := by
    have hlast := h.last (b :: front) old new removed (by simp [hbs])
    simpa using hlast

theorem count_lines_cons : Line.count absent (before ++ lines (b :: current).reverse) =
    Line.count absent (before ++ lines current.reverse) + (b.without absent).length := by
  simp [Line.count, Block.without, Nat.add_assoc]

theorem Open.push (h : Open before current (b :: bs)) : Open before (b :: current) bs where
  ne := by simp
  start absent habsent := by
    rw [List.reverse_cons, start_append (by simpa using h.ne)]
    exact h.start absent habsent
  ahead := by simpa using h.ahead.push

theorem Ahead.place_kept (h : Ahead before (.same old new kept :: bs)) (hkept : kept ≠ []) :
    ∀ absent ≠ .kept, side absent old new = Line.count absent before := fun absent habsent =>
  (h.located absent habsent).1 (by rwa [Block.without_same habsent])

theorem stands {h : Hunk} (hstart : ∀ absent ≠ .kept, Hunk.start absent h = Line.count absent before)
    (hsome : ∀ absent ≠ .kept, Line.without absent h.lines ≠ [])
    (hnew : stop .removed h = Line.count .removed (before ++ h.lines))
    (hold : stop .added h = Line.count .added (before ++ h.lines) ∨
      EndsInAdditions h.lines ∧ after = []) : ReadHunk.Stands before h.read after := by
  have holdStart := hstart .added (by decide)
  have hnewStart := hstart .removed (by decide)
  have hnewSome := List.length_pos_iff.2 (hsome .removed (by decide))
  rw [Line.count_append] at hnew hold
  simp only [Line.count] at *
  refine ⟨hsome .added (by decide), hsome .removed (by decide), ?_, ?_, ?_, ?_⟩
  · simp only [read, Patch.startNumber, hnew, hnewStart, Line.newTexts]
    rw [if_neg (by omega)]
  · simp only [read, hnew, hnewStart, Line.newTexts]
    omega
  · simp only [read, Patch.startNumber, holdStart, Line.oldTexts]
    split <;> rfl
  · refine hold.imp (fun hold => ?_) id
    simp only [read, hold, holdStart, Line.oldTexts]
    omega

/-- A hunk that is closed within kept lines. -/
theorem Open.stands_kept (h : Open before current (.same old new kept :: bs)) (hkept : kept ≠ []) :
    ReadHunk.Stands before (read ((Block.same old new kept).leading :: current).reverse) after := by
  have hplace := h.ahead.place_kept hkept
  have hstop : ∀ absent ≠ .kept, stop absent ((Block.same old new kept).leading :: current).reverse =
      Line.count absent (before ++ lines ((Block.same old new kept).leading :: current).reverse) := by
    intro absent habsent
    rw [List.reverse_cons, stop_append, ← List.reverse_cons, count_lines_cons,
      ← hplace absent habsent]
    rfl
  refine stands ?_ ?_ (hstop .removed (by decide)) (.inl (hstop .added (by decide)))
  · intro absent habsent
    rw [List.reverse_cons, start_append (by simpa using h.ne)]
    exact h.start absent habsent
  · intro absent habsent
    have htake : kept.take 3 ≠ [] := by simp [hkept]
    simp [Block.leading, Block.lines, Block.context, Line.without_ofKept habsent, htake]

/-- A hunk that is closed at the end of the text with a change that comes after kept lines. -/
theorem Open.stands_change {old' new' : Nat}
    (h : Open before (.same old new kept :: current) [.change old' new' removed added])
    (hkept : kept ≠ []) (hsolid : removed ++ added ≠ []) :
    ReadHunk.Stands before
      (read (.change old' new' removed added :: .same old new kept :: current).reverse) [] := by
  have hplace : ∀ absent ≠ .kept, side absent removed added ≠ [] → side absent old' new' =
      Line.count absent (before ++ lines (.same old new kept :: current).reverse) := by
    intro absent habsent hsome
    exact (h.ahead.located absent habsent).1 (by rwa [Block.without_change habsent])
  refine stands ?_ ?_ ?_ ?_
  · intro absent habsent
    rw [List.reverse_cons, start_append (by simp)]
    exact h.start absent habsent
  · intro absent habsent
    simp [Block.lines, Line.without_ofKept habsent, hkept]
  · have hnew : new' = Line.count .removed (before ++ lines (.same old new kept :: current).reverse) := by
      by_cases hadded : added = []
      · subst hadded
        have hlast := h.ahead.last [] old' new' removed rfl
        simpa [Block.lines, Line.ofChange, Line.count] using hlast
      · exact hplace .removed (by decide) hadded
    rw [List.reverse_cons, stop_append, ← List.reverse_cons, count_lines_cons, ← hnew]
    rfl
  · by_cases hremoved : removed = []
    · subst hremoved
      obtain ⟨front, x, rfl⟩ : ∃ front x, kept = front ++ [x] :=
        ⟨_, _, (List.dropLast_concat_getLast hkept).symm⟩
      refine .inr ⟨⟨lines current.reverse ++ Line.ofKept front, x, added, by simpa using hsolid, ?_⟩,
        rfl⟩
      simp [Block.lines, Line.ofChange, Line.ofKept]
    · have hold := hplace .added (by decide) hremoved
      rw [side_added] at hold
      rw [List.reverse_cons, stop_append, ← List.reverse_cons, count_lines_cons, ← hold]
      exact .inl rfl

theorem drop_ne_nil (hkept : kept ≠ []) : kept.drop (kept.length - Block.context) ≠ [] := by
  have hlength := List.length_pos_iff.2 hkept
  have hcontext : 0 < Block.context := by decide
  refine List.ne_nil_of_length_pos ?_
  rw [List.length_drop]
  omega

theorem lines_trailing (old new : Nat) (kept : List String) :
    Line.ofKept (kept.take (kept.length - 3)) ++ (Block.same old new kept).trailing.lines =
      (Block.same old new kept).lines := by
  simp [Line.ofKept, Block.trailing, Block.lines, Block.context]

theorem place_trailing (absent : EditKind) (old new : Nat) (kept : List String) :
    ((Block.same old new kept).trailing).place absent =
      side absent old new + (kept.length - 3) := by
  cases absent <;> rfl

/-- Cutting within a run of kept lines opens a hunk. -/
theorem Ahead.opened (h : Ahead before (.same old new kept :: bs)) (hkept : kept ≠ []) :
    Open (before ++ Line.ofKept (kept.take (kept.length - 3)))
      [(Block.same old new kept).trailing] bs where
  ne := by simp
  start absent habsent := by
    have hstart : Hunk.start absent [(Block.same old new kept).trailing] = _ :=
      place_trailing absent old new kept
    rw [List.reverse_singleton, hstart, h.place_kept hkept absent habsent, Line.count_append,
      Line.count_ofKept habsent, List.length_take]
    omega
  ahead := by
    have hlines := lines_trailing old new kept
    simpa [hlines] using h.push

theorem lines_leading (old new : Nat) (kept : List String) :
    (Block.same old new kept).leading.lines ++ Line.ofKept (kept.drop 3) =
      (Block.same old new kept).lines := by
  simp [Line.ofKept, Block.leading, Block.lines, Block.context]

/-- The lines between the two ends of a long run. -/
theorem exists_middle (old new : Nat) (hkept : 6 < kept.length) : ∃ middle,
    Line.ofKept (kept.take (kept.length - 3)) =
      (Block.same old new kept).leading.lines ++ Line.ofKept middle := by
  have hsplit := List.take_append_drop 3 (kept.take (kept.length - 3))
  rw [List.take_take, Nat.min_eq_left (by omega)] at hsplit
  refine ⟨(kept.take (kept.length - 3)).drop 3, ?_⟩
  exact (congrArg Line.ofKept hsplit).symm.trans List.map_append

@[simp] theorem read_lines (h : Hunk) : (read h).lines = h.lines := rfl

/-- Along the blocks after a change, all hunks stand where they say. -/
theorem cut_along (h : AfterChange bs)
    (hopen : Open before (.change old new removed added :: current) bs)
    (hlast : bs = [] →
      ReadHunk.Stands before (read (.change old new removed added :: current).reverse) []) :
    Along ReadHunk.Stands before
      (lines (.change old new removed added :: current).reverse ++ lines bs)
      ((cut (.change old new removed added :: current) (Block.trimLast bs)).map read) := by
  induction h generalizing before old new removed added current with
  | nil =>
    have halong := Along.next (hlast rfl) (.rest (by simp))
    simpa [Block.trimLast, cut] using halong
  | @last old' new' kept hkept =>
    have halong := Along.next (hopen.stands_kept hkept)
      (.rest (Line.kind_of_mem_ofKept (kept.drop 3)))
    have hlines := lines_leading old' new' kept
    have hcut : cut (.change old new removed added :: current) (Block.trimLast [.same old' new' kept]) =
        [((Block.same old' new' kept).leading :: .change old new removed added :: current).reverse] :=
      cut_last
    rw [hcut]
    simpa [← hlines] using halong
  | @next old' new' old'' new'' kept removed' added' rest hkept hsolid h ih =>
    rw [Block.trimLast_between]
    by_cases hlong : 6 < kept.length
    · obtain ⟨middle, hmiddle⟩ := exists_middle old' new' hlong
      have hlines := lines_trailing old' new' kept
      have hreopen := hopen.ahead.opened hkept
      have hnext := ih hreopen.push ?_
      · rw [hmiddle] at hnext hlines
        rw [cut_long hlong, cut_change, List.map_cons]
        have halong := Along.next (hopen.stands_kept hkept)
          (.skip (Line.kind_of_mem_ofKept middle) (by simpa using hnext))
        simpa [← hlines] using halong
      · rintro rfl
        exact hreopen.stands_change (drop_ne_nil hkept) hsolid
    · rw [cut_short (by omega), cut_change]
      have halong := ih hopen.push.push ?_
      · simpa using halong
      · rintro rfl
        exact hopen.push.stands_change hkept hsolid

theorem ahead_ofScript {s : Script} {a b : List String} (hs : s.Turns a b) (hrecords : s.Records b) :
    Ahead [] (Block.ofScript s) where
  located absent habsent := Block.located_ofScript habsent (hrecords.placed absent habsent)
  last front old new removed hblocks := by
    rw [Block.place_of_last hs.solid hrecords.closing hblocks, ← hs.new, Script.newLines_eq,
      ← Block.without_ofScript (by decide)]
    rfl

/-- All hunks of a script stand where they say, if both texts have lines. -/
theorem ofScript_along {s : Script} {a b : List String} (hs : s.Turns a b) (hrecords : s.Records b)
    (ha : a ≠ []) (hb : b ≠ []) :
    Along ReadHunk.Stands [] (lines (Block.ofScript s)) ((ofScript s).map read) := by
  have hahead := ahead_ofScript hs hrecords
  have hsome : ∀ absent ≠ .kept, Line.without absent (lines (Block.ofScript s)) ≠ [] := by
    intro absent habsent
    have hlines := hs.without_eq habsent
    rw [← Block.without_ofScript habsent] at hlines
    obtain rfl | rfl := added_or_removed habsent <;> exact hlines ▸ ‹_›
  rw [ofScript]
  rcases Block.afterChange_or_change hs.solid with
    hafter | ⟨old, new, removed, added, rest, hblocks, hsolid, hafter⟩
  · generalize Block.ofScript s = bs at *
    cases hafter with
    | nil => exact .rest (by simp)
    | @last old new kept hkept =>
      rw [cut_kept]
      exact .rest (by simpa [Block.lines] using Line.kind_of_mem_ofKept kept)
    | @next old new old' new' kept removed added rest hkept hsolid hafter =>
      have hopen := hahead.opened hkept
      have hlines := lines_trailing old new kept
      have halong := cut_along hafter hopen.push ?_
      · have hskip := Along.skip (Line.kind_of_mem_ofKept _) halong
        have hcut : cut [] (Block.trimLast (Block.trimFirst
            (.same old new kept :: .change old' new' removed added :: rest))) =
            cut [.change old' new' removed added, (Block.same old new kept).trailing]
              (Block.trimLast rest) := cut_first
        rw [hcut]
        simpa [← hlines] using hskip
      · rintro rfl
        exact hopen.stands_change (drop_ne_nil hkept) hsolid
  · rw [hblocks] at hahead hsome ⊢
    rw [cut_opened]
    have hopen : Open [] [.change old new removed added] rest :=
      { ne := by simp
        start := fun absent habsent => Block.place_of_first hs.solid habsent
          (hrecords.placed absent habsent) (hrecords.opening absent habsent) hblocks
        ahead := by simpa using hahead.push }
    have halong := cut_along hafter hopen ?_
    · simpa using halong
    · rintro rfl
      have hstop : ∀ absent ≠ .kept, stop absent [.change old new removed added] =
          Line.count absent ([] ++ lines [.change old new removed added]) := by
        intro absent habsent
        have hstart := hopen.start absent habsent
        rw [← List.nil_append [_], stop_append, Line.count_append, ← hstart]
        simp [Line.count, Block.without, Hunk.start]
      exact stands hopen.start hsome (hstop .removed (by decide)) (.inl (hstop .added (by decide)))

end Hunk

end JsonLayout.Diff
