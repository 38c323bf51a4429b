import JsonLayout.Diff.Unified
import Mathlib.Tactic.Common

/-!
# Lines near a change

Which lines a diff shows is a matter of distance: a line is shown if one at most three lines away is
removed or added. A run of kept lines between two changes is then cut to its two ends.
-/

namespace JsonLayout.Diff

/-- A line and what happens to it. -/
structure Line where
  kind : EditKind
  text : String

namespace Line

def changed (l : Line) : Bool := l.kind ≠ .kept

/-- The texts of all lines but those of one kind. -/
def without (absent : EditKind) (lines : List Line) : List String :=
  (lines.filter (·.kind ≠ absent)).map (·.text)

def oldTexts (lines : List Line) : List String := without .added lines

def newTexts (lines : List Line) : List String := without .removed lines

/-- A line at most three lines away from line `i` is removed or added. -/
def nearChange (lines : List Line) (i : Nat) : Bool :=
  lines.zipIdx.any fun (l, j) => l.changed && decide (i ≤ j + 3) && decide (j ≤ i + 3)

/-- All lines but those far from every change. -/
def shown (lines : List Line) : List Line :=
  (lines.zipIdx.filter fun (_, i) => nearChange lines i).map (·.1)

/-- How many more kept lines are shown on account of the first change in a list, if the list goes on
with them. -/
def reach : List Line → Nat
  | [] => 0
  | l :: rest => if l.changed then 3 else reach rest - 1

/-- The lines shown of the second list when the first one, in reverse, comes before it. -/
def shownFrom (before : List Line) : List Line → List Line
  | [] => []
  | l :: rest =>
      if l.changed || 0 < reach before || 0 < reach rest then l :: shownFrom (l :: before) rest
      else shownFrom (l :: before) rest

theorem reach_le (lines : List Line) : reach lines ≤ 3 := by
  induction lines with
  | nil => exact Nat.zero_le _
  | cons l rest ih =>
    unfold reach
    split <;> omega

theorem exists_changed_cons_iff {l : Line} (hl : ¬ l.changed) (rest : List Line) (n : Nat) :
    (∃ i < n + 1, ∃ m, (l :: rest)[i]? = some m ∧ m.changed) ↔
      ∃ i < n, ∃ m, rest[i]? = some m ∧ m.changed := by
  constructor
  · rintro ⟨i, hi, m, hm, hchanged⟩
    cases i with
    | zero =>
      obtain rfl : l = m := by simpa using hm
      contradiction
    | succ i => exact ⟨i, by omega, m, by simpa using hm, hchanged⟩
  · rintro ⟨i, hi, m, hm, hchanged⟩
    exact ⟨i + 1, by omega, m, by simpa using hm, hchanged⟩

theorem exists_changed_iff (lines : List Line) {n : Nat} (hn : n ≤ 3) :
    (∃ i < n, ∃ l, lines[i]? = some l ∧ l.changed) ↔ 3 < n + reach lines := by
  induction lines generalizing n with
  | nil => simp [reach, hn]
  | cons l rest ih =>
    cases n with
    | zero =>
      have hle := reach_le (l :: rest)
      constructor
      · rintro ⟨i, hi, -⟩
        omega
      · omega
    | succ n =>
      by_cases hl : l.changed
      · constructor
        · intro _
          simp [reach, hl]
        · intro _
          exact ⟨0, by omega, l, rfl, hl⟩
      · have hle := reach_le rest
        rw [exists_changed_cons_iff hl, ih (by omega)]
        simp only [reach, hl, Bool.false_eq_true, if_false]
        omega

theorem reach_pos_iff (lines : List Line) :
    0 < reach lines ↔ ∃ i < 3, ∃ l, lines[i]? = some l ∧ l.changed := by
  rw [exists_changed_iff lines (Nat.le_refl 3)]
  omega

/-- Seen from a line, a change is the line itself or stands among the three lines before or after
it. -/
theorem nearChange_iff (before rest : List Line) (l : Line) :
    nearChange (before.reverse ++ l :: rest) before.length ↔
      l.changed ∨ 0 < reach before ∨ 0 < reach rest := by
  rw [reach_pos_iff, reach_pos_iff]
  simp only [nearChange, List.any_eq_true, Bool.and_eq_true, decide_eq_true_eq, Prod.exists,
    List.mem_zipIdx_iff_getElem?]
  constructor
  · rintro ⟨m, j, hm, ⟨hchanged, hi⟩, hj⟩
    rcases Nat.lt_trichotomy j before.length with hlt | heq | hgt
    · rw [List.getElem?_append_left (by simpa using hlt), List.getElem?_reverse hlt] at hm
      exact .inr (.inl ⟨_, by omega, m, hm, hchanged⟩)
    · subst heq
      obtain rfl : l = m := by simpa using hm
      exact .inl hchanged
    · rw [List.getElem?_append_right (by simp; omega), List.length_reverse,
        show j - before.length = j - before.length - 1 + 1 by omega, List.getElem?_cons_succ] at hm
      exact .inr (.inr ⟨_, by omega, m, hm, hchanged⟩)
  · rintro (hchanged | ⟨i, hi, m, hm, hchanged⟩ | ⟨i, hi, m, hm, hchanged⟩)
    · exact ⟨l, before.length, by simp, ⟨hchanged, by omega⟩, by omega⟩
    · have hlt := (List.getElem?_eq_some_iff.1 hm).1
      refine ⟨m, before.length - 1 - i, ?_, ⟨hchanged, by omega⟩, by omega⟩
      rw [List.getElem?_append_left (by simp; omega), List.getElem?_reverse (by omega),
        show before.length - 1 - (before.length - 1 - i) = i by omega]
      exact hm
    · refine ⟨m, before.length + 1 + i, ?_, ⟨hchanged, by omega⟩, by omega⟩
      rw [List.getElem?_append_right (by simp; omega), List.length_reverse,
        show before.length + 1 + i - before.length = i + 1 by omega, List.getElem?_cons_succ]
      exact hm

theorem shown_eq (lines : List Line) : shown lines = shownFrom [] lines := by
  suffices h : ∀ before rest : List Line,
      ((rest.zipIdx before.length).filter
        fun (_, i) => nearChange (before.reverse ++ rest) i).map (·.1) = shownFrom before rest from
    h [] lines
  intro before rest
  induction rest generalizing before with
  | nil => rfl
  | cons l rest ih =>
    have hrest := ih (l :: before)
    simp only [List.reverse_cons, List.append_assoc, List.singleton_append, List.length_cons]
      at hrest
    rw [List.zipIdx_cons, List.filter_cons, shownFrom]
    have hnear := nearChange_iff before rest l
    by_cases hshown : l.changed ∨ 0 < reach before ∨ 0 < reach rest
    · rw [if_pos (hnear.2 hshown), if_pos (by simpa [or_assoc] using hshown), List.map_cons, hrest]
    · rw [if_neg (mt hnear.1 hshown), if_neg (by simpa [or_assoc] using hshown), hrest]

theorem shownFrom_changed_append {run : List Line} (hrun : ∀ l ∈ run, l.changed)
    (before post : List Line) :
    shownFrom before (run ++ post) = run ++ shownFrom (run.reverse ++ before) post := by
  induction run generalizing before with
  | nil => rfl
  | cons l run ih =>
    have hl : l.changed := hrun l (by simp)
    simp [shownFrom, hl, ih (fun m hm => hrun m (by simp [hm]))]

theorem reach_changed_append {run : List Line} (hrun : ∀ l ∈ run, l.changed) (hne : run ≠ [])
    (post : List Line) : reach (run ++ post) = 3 := by
  cases run with
  | nil => contradiction
  | cons l run => simp [reach, hrun l (by simp)]

theorem reach_kept_append {run : List Line} (hrun : ∀ l ∈ run, ¬ l.changed) (post : List Line) :
    reach (run ++ post) = reach post - run.length := by
  induction run with
  | nil => simp
  | cons l run ih =>
    have hl : ¬ l.changed := hrun l (by simp)
    simp only [List.cons_append, reach, hl, ih (fun m hm => hrun m (by simp [hm])),
      List.length_cons]
    simp only [Bool.false_eq_true, if_false]
    omega

/-- What is shown of a run of kept lines: all of it if both ends meet, else what each end reaches. -/
def ends (front back : Nat) (run : List Line) : List Line :=
  if run.length ≤ front + back then run else run.take front ++ run.drop (run.length - back)

theorem ends_cons (front back : Nat) (l : Line) (run : List Line) :
    ends front back (l :: run) =
      if 0 < front ∨ run.length < back then l :: ends (front - 1) back run
      else ends (front - 1) back run := by
  unfold ends
  rw [List.length_cons]
  by_cases hfront : 0 < front
  · obtain ⟨n, rfl⟩ : ∃ n, front = n + 1 := ⟨front - 1, by omega⟩
    have hshown : 0 < n + 1 ∨ run.length < back := .inl hfront
    rw [if_pos hshown, Nat.add_sub_cancel]
    by_cases hlength : run.length ≤ n + back
    · rw [if_pos (by omega), if_pos hlength]
    · have hdrop : run.length + 1 - back = run.length - back + 1 := by omega
      rw [if_neg (by omega), if_neg hlength, hdrop]
      rfl
  · obtain rfl : front = 0 := by omega
    by_cases hback : run.length < back
    · have hshown : 0 < 0 ∨ run.length < back := .inr hback
      rw [if_pos hshown, if_pos (by omega), if_pos (by omega)]
    · have hdrop : run.length + 1 - back = run.length - back + 1 := by omega
      rw [if_neg (by omega), if_neg (by omega), hdrop]
      by_cases hlength : run.length ≤ 0 - 1 + back
      · rw [if_pos hlength, show run.length - back = 0 by omega]
        rfl
      · rw [if_neg hlength]
        rfl

theorem shownFrom_kept_append {run : List Line} (hrun : ∀ l ∈ run, ¬ l.changed)
    (before post : List Line) :
    shownFrom before (run ++ post) =
      ends (reach before) (reach post) run ++ shownFrom (run.reverse ++ before) post := by
  induction run generalizing before with
  | nil => simp [ends]
  | cons l run ih =>
    have hl : ¬ l.changed := hrun l (by simp)
    have hrun' : ∀ m ∈ run, ¬ m.changed := fun m hm => hrun m (by simp [hm])
    have hbefore : reach (l :: before) = reach before - 1 := by simp [reach, hl]
    rw [List.cons_append, shownFrom, ih hrun', hbefore, reach_kept_append hrun', ends_cons,
      List.reverse_cons, List.append_assoc, List.singleton_append]
    -- shown if something before reaches it, or if what comes after reaches over all of the rest
    by_cases hshown : 0 < reach before ∨ run.length < reach post
    · rw [if_pos (by simp; omega), if_pos hshown, List.cons_append]
    · rw [if_neg (by simp [hl]; omega), if_neg hshown]

end Line

end JsonLayout.Diff
