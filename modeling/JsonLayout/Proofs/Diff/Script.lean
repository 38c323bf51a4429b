import JsonLayout.Diff.Unified
import Mathlib.Tactic.Common

/-!
# Scripts turn one text into the other

Every way to build a script keeps both texts: dividing, and each move of an edit when the script is
tidied. No edit is ever left without lines. The two texts are treated alike, as the lines of all
edits but those of one kind.
-/

namespace JsonLayout.Diff

/-- The lines of an edit, unless it is of the kind that is left out. -/
def Edit.without (absent : EditKind) (e : Edit) : List String :=
  if e.kind = absent then [] else e.lines

namespace Script

/-- The lines of all edits but those of one kind: the old text without what is added, the new text
without what is removed. -/
def without (absent : EditKind) (s : Script) : List String := s.flatMap (Edit.without absent)

theorem oldLines_eq (s : Script) : s.oldLines = s.without .added := rfl

theorem newLines_eq (s : Script) : s.newLines = s.without .removed := rfl

section Without

variable (absent : EditKind) (e : Edit) (s t : Script)

@[simp] theorem without_nil : without absent [] = [] := rfl

@[simp] theorem without_cons : without absent (e :: s) = e.without absent ++ without absent s := by
  simp [without]

@[simp] theorem without_append : without absent (s ++ t) = without absent s ++ without absent t := by
  simp [without]

theorem without_single (kind : EditKind) (lines : List String) (old new : Nat) :
    without absent (single kind lines old new) = if kind = absent then [] else lines := by
  unfold single
  split
  · rename_i hempty
    simp [List.isEmpty_iff.1 hempty]
  · simp [Edit.without]

theorem push_eq : push e s = single e.kind e.lines e.old e.new ++ s := by
  unfold push single
  split <;> rfl

theorem single_reverse (kind : EditKind) (lines : List String) (old new : Nat) :
    (single kind lines old new).reverse = single kind lines old new := by
  unfold single
  split <;> rfl

@[simp] theorem without_push : without absent (push e s) = e.without absent ++ without absent s := by
  rw [push_eq, without_append, without_single, Edit.without]

@[simp] theorem without_reverse_push :
    without absent (push e s).reverse = without absent s.reverse ++ e.without absent := by
  rw [push_eq, List.reverse_append, single_reverse, without_append, without_single, Edit.without]

end Without

/-- No edit is empty. -/
def Solid (s : Script) : Prop := ∀ e ∈ s, e.lines ≠ []

section Solid

variable {e : Edit} {s t : Script}

theorem solid_append : Solid (s ++ t) ↔ Solid s ∧ Solid t := by
  simp only [Solid, List.mem_append, or_imp, forall_and]

theorem solid_cons : Solid (e :: s) ↔ e.lines ≠ [] ∧ Solid s := by
  simp [Solid]

theorem solid_reverse : Solid s.reverse ↔ Solid s := by
  simp [Solid]

theorem solid_single (kind : EditKind) (lines : List String) (old new : Nat) :
    Solid (single kind lines old new) := by
  unfold single
  split
  · simp [Solid]
  · rename_i hlines
    simpa [Solid] using hlines

theorem Solid.push (h : Solid s) : Solid (push e s) := by
  rw [push_eq]
  exact solid_append.2 ⟨solid_single _ _ _ _, h⟩

end Solid

/-- The script says how to get from `a` to `b`, and every edit in it does something. -/
structure Turns (s : Script) (a b : List String) : Prop where
  old : s.oldLines = a
  new : s.newLines = b
  solid : s.Solid

variable {s t : Script} {a b c d : List String}

theorem Turns.append (h : Turns s a b) (h' : Turns t c d) : Turns (s ++ t) (a ++ c) (b ++ d) where
  old := by rw [oldLines_eq, without_append, ← oldLines_eq, ← oldLines_eq, h.old, h'.old]
  new := by rw [newLines_eq, without_append, ← newLines_eq, ← newLines_eq, h.new, h'.new]
  solid := solid_append.2 ⟨h.solid, h'.solid⟩

theorem turns_single (kind : EditKind) (lines : List String) (old new : Nat) :
    Turns (single kind lines old new) (if kind = .added then [] else lines)
      (if kind = .removed then [] else lines) where
  old := without_single _ _ _ _ _
  new := without_single _ _ _ _ _
  solid := solid_single _ _ _ _

end Script

theorem script_turns (old new : Nat) (a b : List String) : (script old new a b).Turns a b := by
  fun_induction script old new a b with
  | case1 old new a b f old' new' middle ihfirst ihsecond =>
    -- the parts into which the middle is divided make it up again
    have hmiddle : middle.Turns f.left f.right := by
      unfold middle
      split
      · rename_i hright
        rw [hright]
        exact Script.turns_single .removed _ _ _
      · split
        · rename_i hleft
          rw [hleft]
          exact Script.turns_single .added _ _ _
        · split
          rename_i x y hdivides _
          have h := (ihfirst x y hdivides).append (ihsecond x y hdivides)
          rwa [List.take_append_drop, List.take_append_drop] at h
    have h := ((Script.turns_single .kept f.front old new).append hmiddle).append
      (Script.turns_single .kept f.back (old' + f.left.length) (new' + f.right.length))
    have hold : f.front ++ f.left ++ f.back = a := f.old
    have hnew : f.front ++ f.right ++ f.back = b := f.new
    simpa [hold, hnew] using h

namespace Focus

variable {absent : EditKind}

theorem without_keepAfter (habsent : absent ≠ .kept) (lines : List String) (old new : Nat)
    (s : Script) : (keepAfter lines old new s).without absent = lines ++ s.without absent := by
  cases s with
  | nil => simp [keepAfter, Edit.without, habsent.symm]
  | cons e s =>
    by_cases he : e.kind = .kept <;> simp [keepAfter, Edit.without, he, habsent.symm]

theorem without_reverse_keepBefore (habsent : absent ≠ .kept) (lines : List String) (old new : Nat)
    (s : Script) : Script.without absent (keepBefore lines old new s).reverse =
      Script.without absent s.reverse ++ lines := by
  cases s with
  | nil => simp [keepBefore, Edit.without, habsent.symm]
  | cons e s =>
    by_cases he : e.kind = .kept <;> simp [keepBefore, Edit.without, he, habsent.symm]

theorem solid_keepAfter {lines : List String} (hlines : lines ≠ []) (old new : Nat) {s : Script}
    (h : s.Solid) : (keepAfter lines old new s).Solid := by
  cases s with
  | nil => simpa [keepAfter, Script.Solid] using hlines
  | cons e s =>
    rw [Script.solid_cons] at h
    by_cases he : e.kind = .kept <;> simp [keepAfter, he, Script.solid_cons, hlines, h]

theorem solid_keepBefore {lines : List String} (hlines : lines ≠ []) (old new : Nat) {s : Script}
    (h : s.Solid) : (keepBefore lines old new s).Solid := by
  cases s with
  | nil => simpa [keepBefore, Script.Solid] using hlines
  | cons e s =>
    rw [Script.solid_cons] at h
    by_cases he : e.kind = .kept <;> simp [keepBefore, he, Script.solid_cons, hlines, h]

/-- A removal and an addition do not have lines in the same text. -/
theorem without_left_comm (habsent : absent ≠ .kept) {q t : Edit} (hq : q.kind ≠ .kept)
    (ht : t.kind ≠ .kept) (hne : q.kind ≠ t.kind) (lines : List String) :
    q.without absent ++ (t.without absent ++ lines) =
      t.without absent ++ (q.without absent ++ lines) := by
  have hone : q.kind = absent ∨ t.kind = absent := by
    cases hq' : q.kind <;> cases ht' : t.kind <;> cases absent <;> simp_all
  rcases hone with h | h <;> simp [Edit.without, h]

/-- A move keeps both texts: only lines that are equal move past each other within a text. -/
theorem Step.without_eq {f g : Focus} (h : Step f g) (habsent : absent ≠ .kept)
    (hkind : f.edit.kind ≠ .kept) : g.toScript.without absent = f.toScript.without absent := by
  cases h with
  | slideUp hq ht hmoved hleft hrest =>
    obtain rfl | rfl : absent = .added ∨ absent = .removed := by cases absent <;> simp_all
    all_goals simp [toScript, without_keepAfter, Edit.without, hq, ht, hleft, hrest]
  | slideDown hq ht hmoved hleft hrest =>
    obtain rfl | rfl : absent = .added ∨ absent = .removed := by cases absent <;> simp_all
    all_goals simp [toScript, without_reverse_keepBefore, Edit.without, hq, ht, hleft, hrest]
  | skipUp hq hempty => simp [toScript, Edit.without, hempty]
  | skipDown hq hempty => simp [toScript, Edit.without, hempty]
  | @joinUp q t before after hq hsame =>
    by_cases ht : t.kind = absent <;> simp [toScript, Edit.without, hsame, ht]
  | @joinDown q t before after hq hsame =>
    by_cases ht : t.kind = absent <;> simp [toScript, Edit.without, hsame, ht]
  | swapUp hq hne => simp [toScript, without_left_comm habsent hq hkind hne]
  | swapDown hq hne => simp [toScript, without_left_comm habsent hq hkind hne]

theorem Step.solid {f g : Focus} (h : Step f g) (hf : f.toScript.Solid) : g.toScript.Solid := by
  simp only [toScript, Script.solid_append, Script.solid_reverse, Script.solid_cons] at hf ⊢
  cases h with
  | slideUp hq ht hmoved hleft hrest =>
    obtain ⟨⟨-, hbefore⟩, -, hafter⟩ := by simpa only [Script.solid_cons] using hf
    exact ⟨hbefore.push, by simp [hmoved], solid_keepAfter hmoved _ _ hafter⟩
  | slideDown hq ht hmoved hleft hrest =>
    obtain ⟨hbefore, -, -, hafter⟩ := by simpa only [Script.solid_cons] using hf
    exact ⟨solid_keepBefore hmoved _ _ hbefore, by simp [hmoved], hafter.push⟩
  | skipUp hq hempty =>
    obtain ⟨⟨-, hbefore⟩, ht, hafter⟩ := by simpa only [Script.solid_cons] using hf
    exact ⟨hbefore, ht, hafter⟩
  | skipDown hq hempty =>
    obtain ⟨hbefore, ht, -, hafter⟩ := by simpa only [Script.solid_cons] using hf
    exact ⟨hbefore, ht, hafter⟩
  | joinUp hq hsame =>
    obtain ⟨⟨hlines, hbefore⟩, -, hafter⟩ := by simpa only [Script.solid_cons] using hf
    exact ⟨hbefore, by simp [hlines], hafter⟩
  | joinDown hq hsame =>
    obtain ⟨hbefore, ht, -, hafter⟩ := by simpa only [Script.solid_cons] using hf
    exact ⟨hbefore, by simp [ht], hafter⟩
  | swapUp hq hne =>
    obtain ⟨⟨hlines, hbefore⟩, ht, hafter⟩ := by simpa only [Script.solid_cons] using hf
    exact ⟨hbefore, ht, Script.solid_cons.2 ⟨hlines, hafter⟩⟩
  | swapDown hq hne =>
    obtain ⟨hbefore, ht, hlines, hafter⟩ := by simpa only [Script.solid_cons] using hf
    exact ⟨Script.solid_cons.2 ⟨hlines, hbefore⟩, ht, hafter⟩

structure Turns (f : Focus) (a b : List String) : Prop where
  kind : f.edit.kind ≠ .kept
  script : f.toScript.Turns a b

theorem Step.turns {f g : Focus} {a b : List String} (h : Step f g) (hf : f.Turns a b) :
    g.Turns a b where
  kind := by
    rw [h.edit_kind]
    exact hf.kind
  script :=
    { old := by rw [← hf.script.old]; exact h.without_eq (by decide) hf.kind
      new := by rw [← hf.script.new]; exact h.without_eq (by decide) hf.kind
      solid := h.solid hf.script.solid }

theorem Turns.settle {f : Focus} {a b : List String} (hf : f.Turns a b) : (settle f).Turns a b :=
  settle_induction hf fun _ _ hstep hg => hstep.turns hg

end Focus

theorem sweepFrom_turns {kind : EditKind} (hkind : kind ≠ .kept) {before rest : Script}
    {a b : List String} (h : Script.Turns (before.reverse ++ rest) a b) :
    (sweepFrom kind before rest).Turns a b := by
  fun_induction sweepFrom kind before rest with
  | case1 before => simpa using h
  | case2 before e rest hsame f ih =>
    -- at each stop the focus is in a script for the same two texts
    have hfocus : Focus.Turns ⟨before, e, rest⟩ a b := ⟨by simpa [hsame] using hkind, h⟩
    have hsettled := hfocus.settle.script
    refine ih ?_
    simpa [Focus.toScript] using hsettled
  | case3 before e rest hne ih =>
    refine ih ?_
    simpa using h

theorem compact_turns {s : Script} {a b : List String} (h : s.Turns a b) :
    (compact s).Turns a b :=
  sweepFrom_turns (by decide) (sweepFrom_turns (by decide) h)

theorem between_turns (old new : String) :
    (between old new).Turns (Text.lines old) (Text.lines new) :=
  compact_turns (script_turns 0 0 _ _)

theorem script_self (old new : Nat) (a : List String) :
    script old new a a = Script.single .kept a old new := by
  rw [script]
  simp [Frame.of, Script.single]

theorem compact_kept (lines : List String) (old new : Nat) :
    compact (Script.single .kept lines old new) = Script.single .kept lines old new := by
  unfold Script.single
  split <;> simp [compact, sweep, sweepFrom]

theorem between_self (s : String) :
    between s s = Script.single .kept (Text.lines s) 0 0 := by
  rw [between, script_self, compact_kept]

end JsonLayout.Diff
