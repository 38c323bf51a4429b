import JsonLayout.Proofs.Diff.Context
import JsonLayout.Proofs.Diff.Script

/-!
# Hunks show the lines near a change

A script falls into runs of kept lines and changes. Cutting the runs to the context of the changes
around them shows exactly the lines near a change, in order, and every hunk holds a change.
-/

namespace JsonLayout.Diff

namespace Line

variable (absent : EditKind)

@[simp] theorem without_nil : without absent [] = [] := rfl

@[simp] theorem without_append (s t : List Line) :
    without absent (s ++ t) = without absent s ++ without absent t := by
  simp [without]

@[simp] theorem without_map (kind : EditKind) (texts : List String) :
    without absent (texts.map (Line.mk kind)) = if kind = absent then [] else texts := by
  induction texts with
  | nil => simp [without]
  | cons text texts ih =>
    by_cases h : kind = absent <;> simp_all [without]

end Line

namespace Line

def ofKept (kept : List String) : List Line := kept.map (Line.mk .kept)

/-- The lines of a change, the removed ones before the added ones. -/
def ofChange (removed added : List String) : List Line :=
  removed.map (Line.mk .removed) ++ added.map (Line.mk .added)

variable {kept removed added : List String}

theorem shownFrom_ofKept (kept : List String) (before post : List Line) :
    shownFrom before (ofKept kept ++ post) =
      ends (reach before) (reach post) (ofKept kept) ++
        shownFrom ((ofKept kept).reverse ++ before) post :=
  shownFrom_kept_append (by simp [ofKept, changed]) before post

theorem changed_of_mem_ofChange : ∀ l ∈ ofChange removed added, l.changed := by
  intro l hl
  simp only [ofChange, List.mem_append, List.mem_map] at hl
  rcases hl with ⟨text, -, rfl⟩ | ⟨text, -, rfl⟩ <;> rfl

theorem ofChange_ne_nil (hsolid : removed ++ added ≠ []) : ofChange removed added ≠ [] := by
  intro h
  simp_all [ofChange]

theorem shownFrom_ofChange (before post : List Line) :
    shownFrom before (ofChange removed added ++ post) =
      ofChange removed added ++ shownFrom ((ofChange removed added).reverse ++ before) post :=
  shownFrom_changed_append changed_of_mem_ofChange before post

theorem reach_ofChange (hsolid : removed ++ added ≠ []) (post : List Line) :
    reach (ofChange removed added ++ post) = 3 :=
  reach_changed_append changed_of_mem_ofChange (ofChange_ne_nil hsolid) post

theorem reach_reverse_ofChange (hsolid : removed ++ added ≠ []) (before : List Line) :
    reach ((ofChange removed added).reverse ++ before) = 3 :=
  reach_changed_append (fun l hl => changed_of_mem_ofChange l (List.mem_reverse.1 hl))
    (mt List.reverse_eq_nil_iff.1 (ofChange_ne_nil hsolid)) before

theorem ends_front : ends 3 0 (ofKept kept) = ofKept (kept.take 3) := by
  simp only [ends, ofKept, List.length_map]
  split
  · rw [List.take_of_length_le (by omega)]
  · simp [List.map_take]

theorem ends_back : ends 0 3 (ofKept kept) = ofKept (kept.drop (kept.length - 3)) := by
  simp only [ends, ofKept, List.length_map]
  split
  · rw [show kept.length - 3 = 0 by omega, List.drop_zero]
  · simp [List.map_drop]

theorem ends_none : ends 0 0 (ofKept kept) = [] := by
  simp only [ends]
  split
  · exact List.eq_nil_of_length_eq_zero (by omega)
  · simp

theorem ends_long (h : 6 < kept.length) : ends 3 3 (ofKept kept) =
    ofKept (kept.take 3) ++ ofKept (kept.drop (kept.length - 3)) := by
  simp only [ends, ofKept, List.length_map, List.map_take, List.map_drop]
  exact if_neg (by omega)

theorem ends_short (h : kept.length ≤ 6) : ends 3 3 (ofKept kept) = ofKept kept := by
  simp only [ends, ofKept, List.length_map]
  exact if_pos (by omega)

end Line

namespace Block

def lines : Block → List Line
  | .same _ _ kept => Line.ofKept kept
  | .change _ _ removed added => Line.ofChange removed added

/-- Changes with at least one line each, and between two runs of kept lines a change. -/
inductive Alternating : List Block → Prop
  | nil : Alternating []
  | same (old new : Nat) (kept : List String) : Alternating [.same old new kept]
  | change {old new : Nat} {removed added : List String} {rest : List Block}
      (hsolid : removed ++ added ≠ []) (h : Alternating rest) :
      Alternating (.change old new removed added :: rest)
  | between {old new old' new' : Nat} {kept removed added : List String} {rest : List Block}
      (hsolid : removed ++ added ≠ []) (h : Alternating rest) :
      Alternating (.same old new kept :: .change old' new' removed added :: rest)

theorem Alternating.cons {e : Edit} {bs : List Block} (he : e.lines ≠ [])
    (h : Alternating bs) : Alternating (cons e bs) := by
  cases h with
  | nil =>
    cases hkind : e.kind <;> simp only [Block.cons, hkind]
    · exact .same _ _ _
    · exact .change (by simp [he]) .nil
    · exact .change (by simp [he]) .nil
  | same old new kept =>
    cases hkind : e.kind <;> simp only [Block.cons, hkind]
    · exact .same _ _ _
    · exact .change (by simp [he]) (.same _ _ _)
    · exact .change (by simp [he]) (.same _ _ _)
  | change hsolid h =>
    cases hkind : e.kind <;> simp only [Block.cons, hkind]
    · exact .between hsolid h
    · exact .change (by simp [he]) h
    · exact .change (by simp [he]) h
  | between hsolid h =>
    cases hkind : e.kind <;> simp only [Block.cons, hkind]
    · exact .between hsolid h
    · exact .change (by simp [he]) (.between hsolid h)
    · exact .change (by simp [he]) (.between hsolid h)

theorem alternating_ofScript {s : Script} (h : s.Solid) : Alternating (ofScript s) := by
  induction s with
  | nil => exact .nil
  | cons e s ih =>
    rw [Script.solid_cons] at h
    exact (ih h.2).cons h.1

theorem without_cons {absent : EditKind} (habsent : absent ≠ .kept) (e : Edit) (bs : List Block) :
    Line.without absent ((cons e bs).flatMap lines) =
      e.without absent ++ Line.without absent (bs.flatMap lines) := by
  obtain rfl | rfl : absent = .added ∨ absent = .removed := by cases absent <;> simp_all
  all_goals
    rcases bs with _ | ⟨_ | _, rest⟩ <;> cases hkind : e.kind <;>
      simp [cons, hkind, lines, Line.ofKept, Line.ofChange, Edit.without]

/-- The blocks of a script have the lines of both texts. -/
theorem without_ofScript {absent : EditKind} (habsent : absent ≠ .kept) (s : Script) :
    Line.without absent ((ofScript s).flatMap lines) = s.without absent := by
  induction s with
  | nil => rfl
  | cons e s ih =>
    rw [Script.without_cons, ← ih]
    exact without_cons habsent e _

variable {old new old' new' : Nat} {kept removed added : List String} {rest : List Block}

@[simp] theorem trimLast_change : trimLast (.change old new removed added :: rest) =
    .change old new removed added :: trimLast rest := by
  cases rest <;> rfl

@[simp] theorem trimLast_between :
    trimLast (.same old new kept :: .change old' new' removed added :: rest) =
      .same old new kept :: .change old' new' removed added :: trimLast rest := by
  rw [trimLast, trimLast_change]
  simp

end Block

namespace Hunk

def lines (h : Hunk) : List Line := h.flatMap Block.lines

@[simp] theorem lines_nil : lines [] = [] := rfl

@[simp] theorem lines_cons (b : Block) (h : Hunk) : lines (b :: h) = b.lines ++ lines h := by
  simp [lines]

@[simp] theorem lines_append (g h : Hunk) : lines (g ++ h) = lines g ++ lines h := by
  simp [lines]

section Cut

variable {old new old' new' : Nat} {kept removed added removed' added' : List String}
  {current rest bs : List Block}

theorem cut_change : cut current (.change old new removed added :: rest) =
    cut (.change old new removed added :: current) rest := rfl

theorem cut_short (h : kept.length ≤ 6) :
    cut current (.same old new kept :: rest) = cut (.same old new kept :: current) rest := by
  rw [cut]
  exact if_neg (Nat.not_lt_of_le h)

theorem cut_long (h : 6 < kept.length) : cut current (.same old new kept :: rest) =
    ((Block.same old new kept).leading :: current).reverse ::
      cut [(Block.same old new kept).trailing] rest := by
  rw [cut]
  exact if_pos h

theorem length_front_le (kept : List String) : (kept.take Block.context).length ≤ 6 := by
  rw [List.length_take]
  exact Nat.le_trans (Nat.min_le_left _ _) (by decide)

theorem length_back_le (kept : List String) :
    (kept.drop (kept.length - Block.context)).length ≤ 6 := by
  have hcontext : Block.context ≤ 6 := by decide
  rw [List.length_drop]
  omega

/-- A run of kept lines that the text ends with goes to the open hunk. -/
theorem cut_last : cut (.change old new removed added :: current)
      (Block.trimLast [.same old' new' kept]) =
    [(.same old' new' (kept.take 3) :: .change old new removed added :: current).reverse] := by
  rw [Block.trimLast, Block.leading, cut_short (length_front_le kept)]
  rfl

/-- A run of kept lines that the text starts with goes to the first hunk, if there is a change. -/
theorem cut_first : cut [] (Block.trimLast (Block.trimFirst
      (.same old new kept :: .change old' new' removed added :: rest))) =
    cut [.change old' new' removed added,
        .same (old + (kept.length - 3)) (new + (kept.length - 3)) (kept.drop (kept.length - 3))]
      (Block.trimLast rest) := by
  rw [Block.trimFirst, Block.trailing, Block.trimLast_between, cut_short (length_back_le _),
    cut_change]
  rfl

theorem cut_kept : cut [] (Block.trimLast (Block.trimFirst [.same old new kept])) = [] := by
  rw [Block.trimFirst, Block.trailing, Block.trimLast, Block.leading,
    cut_short (length_front_le _)]
  rfl

theorem cut_opened : cut [] (Block.trimLast (Block.trimFirst
      (.change old new removed added :: rest))) =
    cut [.change old new removed added] (Block.trimLast rest) := by
  have hfirst : Block.trimFirst (.change old new removed added :: rest) =
    .change old new removed added :: rest := rfl
  rw [hfirst, Block.trimLast_change, cut_change]

/-- The hunks show what is near a change and nothing else, if the open hunk ends with a change. -/
theorem cut_shows (h : Block.Alternating bs) {before : List Line}
    (hbefore : Line.reach before = 3) :
    (cut (.change old new removed added :: current) (Block.trimLast bs)).flatMap lines =
      lines (Block.change old new removed added :: current).reverse ++
        Line.shownFrom before (bs.flatMap Block.lines) := by
  induction h generalizing old new removed added current before with
  | nil => simp [Block.trimLast, cut, Line.shownFrom]
  | same old' new' kept =>
    have hrun := Line.shownFrom_ofKept kept before []
    rw [List.append_nil, hbefore, Line.reach, Line.ends_front, Line.shownFrom, List.append_nil]
      at hrun
    rw [cut_last]
    simp [hrun, Block.lines]
  | change hsolid h ih =>
    rw [Block.trimLast_change, cut_change, ih (Line.reach_reverse_ofChange hsolid before)]
    simp [Line.shownFrom_ofChange, Block.lines]
  | @between old' new' old'' new'' kept removed' added' rest hsolid h ih =>
    -- a run of kept lines is taken together with the change after it, which opens a new hunk or
    -- goes on with the open one
    have hrun := Line.shownFrom_ofKept kept before
      (Line.ofChange removed' added' ++ rest.flatMap Block.lines)
    rw [hbefore, Line.reach_ofChange hsolid, Line.shownFrom_ofChange] at hrun
    have hreach := Line.reach_reverse_ofChange hsolid ((Line.ofKept kept).reverse ++ before)
    rw [Block.trimLast_between]
    by_cases hlong : 6 < kept.length
    · rw [Line.ends_long hlong] at hrun
      rw [cut_long hlong, cut_change, List.flatMap_cons, ih hreach]
      simp [Block.lines, Block.leading, Block.trailing, Block.context, hrun]
    · rw [Line.ends_short (by omega)] at hrun
      rw [cut_short (by omega), cut_change, ih hreach]
      simp [Block.lines, hrun]

theorem exists_changed (old new : Nat) {h : Hunk} (hsolid : removed ++ added ≠ [])
    (hmem : Block.change old new removed added ∈ h) : ∃ l ∈ lines h, l.changed := by
  obtain ⟨l, hl⟩ := List.exists_mem_of_ne_nil _ (Line.ofChange_ne_nil hsolid)
  exact ⟨l, List.mem_flatMap.2 ⟨_, hmem, hl⟩, Line.changed_of_mem_ofChange l hl⟩

theorem cut_changed (h : Block.Alternating bs) (hsolid : removed ++ added ≠ []) :
    ∀ g ∈ cut (.change old new removed added :: current) (Block.trimLast bs),
      ∃ l ∈ lines g, l.changed := by
  induction h generalizing old new removed added current with
  | nil =>
    intro g hg
    obtain rfl : g = (Block.change old new removed added :: current).reverse := by
      simpa [Block.trimLast, cut] using hg
    exact exists_changed old new hsolid (by simp)
  | same old' new' kept =>
    intro g hg
    rw [cut_last, List.mem_singleton] at hg
    subst hg
    exact exists_changed old new hsolid (by simp)
  | change hsolid' h ih =>
    rw [Block.trimLast_change, cut_change]
    exact ih hsolid'
  | @between old' new' old'' new'' kept removed' added' rest hsolid' h ih =>
    rw [Block.trimLast_between]
    by_cases hlong : 6 < kept.length
    · rw [cut_long hlong, cut_change]
      intro g hg
      rcases List.mem_cons.1 hg with rfl | hg
      · exact exists_changed old new hsolid (by simp)
      · exact ih hsolid' g hg
    · rw [cut_short (by omega), cut_change]
      exact ih hsolid'

end Cut

/-- The hunks of a script show the lines near a change, in order. -/
theorem ofScript_shows {s : Script} (hs : s.Solid) :
    (ofScript s).flatMap lines = Line.shown ((Block.ofScript s).flatMap Block.lines) := by
  have halternating := Block.alternating_ofScript hs
  rw [Line.shown_eq, ofScript]
  generalize Block.ofScript s = bs at halternating ⊢
  cases halternating with
  | nil => rfl
  | same old new kept =>
    have hrun := Line.shownFrom_ofKept kept [] []
    rw [List.append_nil, Line.reach, Line.ends_none, Line.shownFrom] at hrun
    rw [cut_kept]
    simp [Block.lines, hrun]
  | change hsolid h =>
    rw [cut_opened, cut_shows h (Line.reach_reverse_ofChange hsolid [])]
    simp [Block.lines, Line.shownFrom_ofChange]
  | @between old new old' new' kept removed added rest hsolid h =>
    have hrun := Line.shownFrom_ofKept kept []
      (Line.ofChange removed added ++ rest.flatMap Block.lines)
    rw [Line.reach_ofChange hsolid, Line.shownFrom_ofChange, Line.reach, Line.ends_back] at hrun
    have hreach := Line.reach_reverse_ofChange hsolid ((Line.ofKept kept).reverse ++ [])
    rw [cut_first, cut_shows h hreach]
    simp [Block.lines, hrun]

theorem ofScript_changed {s : Script} (hs : s.Solid) :
    ∀ g ∈ ofScript s, ∃ l ∈ lines g, l.changed := by
  have halternating := Block.alternating_ofScript hs
  rw [ofScript]
  generalize Block.ofScript s = bs at halternating
  cases halternating with
  | nil => simp [Block.trimFirst, Block.trimLast, cut]
  | same old new kept => simp [cut_kept]
  | change hsolid h =>
    rw [cut_opened]
    exact cut_changed h hsolid
  | between hsolid h =>
    rw [cut_first]
    exact cut_changed h hsolid

end Hunk

end JsonLayout.Diff
