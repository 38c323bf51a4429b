/-! # Edits

A script turns one list of lines into another. Each edit carries the lines it is about, so that
the two texts can be read off a script: the kept and removed lines are the old one, the kept and
added lines the new one. -/

namespace JsonLayout.Diff

inductive EditKind where
  | kept | removed | added
  deriving DecidableEq

/-- A run of lines. `old` and `new` are the recorded places of the edit in the two texts, in lines
from the start. For the side on which an edit has no lines, the record is not kept up to date when
edits move past each other. -/
structure Edit where
  kind : EditKind
  lines : List String
  old : Nat
  new : Nat
  deriving DecidableEq

abbrev Script := List Edit

namespace Edit

def oldLines (e : Edit) : List String := if e.kind = .added then [] else e.lines

def newLines (e : Edit) : List String := if e.kind = .removed then [] else e.lines

end Edit

namespace Script

def oldLines (s : Script) : List String := s.flatMap Edit.oldLines

def newLines (s : Script) : List String := s.flatMap Edit.newLines

def count (kind : EditKind) (s : Script) : Nat := s.countP (·.kind = kind)

/-- Lines and edits together, for recursions that shorten an edit or drop it. -/
def weight : Script → Nat
  | [] => 0
  | e :: s => e.lines.length + 1 + weight s

@[simp] theorem weight_cons (e : Edit) (s : Script) :
    weight (e :: s) = e.lines.length + 1 + weight s := rfl

/-- One edit, or none if there are no lines. -/
def single (kind : EditKind) (lines : List String) (old new : Nat) : Script :=
  if lines.isEmpty then [] else [⟨kind, lines, old, new⟩]

/-- Put an edit in front, unless it has no lines. -/
def push (e : Edit) (s : Script) : Script := if e.lines.isEmpty then s else e :: s

theorem weight_push_le (e : Edit) (s : Script) :
    weight (push e s) ≤ e.lines.length + 1 + weight s := by
  unfold push
  split
  · omega
  · simp

end Script

/-- How many lines two lists have in common at the start. -/
def commonPrefix (a b : List String) : Nat :=
  ((a.zip b).takeWhile fun (x, y) => x = y).length

/-- How many lines two lists have in common at the end. -/
def commonSuffix (a b : List String) : Nat := commonPrefix a.reverse b.reverse

section Common

variable (a b : List String)

@[simp] theorem commonPrefix_nil : commonPrefix a [] = 0 := by simp [commonPrefix]

@[simp] theorem nil_commonPrefix : commonPrefix [] b = 0 := by simp [commonPrefix]

theorem commonPrefix_cons (x y : String) :
    commonPrefix (x :: a) (y :: b) = if x = y then commonPrefix a b + 1 else 0 := by
  by_cases h : x = y <;> simp [commonPrefix, h]

@[simp] theorem commonPrefix_self : commonPrefix a a = a.length := by
  induction a with
  | nil => rfl
  | cons x a ih => simp [commonPrefix_cons, ih]

theorem commonPrefix_le : commonPrefix a b ≤ a.length ∧ commonPrefix a b ≤ b.length := by
  induction a generalizing b with
  | nil => simp
  | cons x a ih =>
    cases b with
    | nil => simp
    | cons y b =>
      have hle := ih b
      rw [commonPrefix_cons, List.length_cons, List.length_cons]
      split <;> omega

theorem take_commonPrefix : a.take (commonPrefix a b) = b.take (commonPrefix a b) := by
  induction a generalizing b with
  | nil => simp
  | cons x a ih =>
    cases b with
    | nil => simp
    | cons y b =>
      rw [commonPrefix_cons]
      split
      · rename_i h
        simp [h, ih]
      · rfl

theorem commonPrefix_stops (ha : commonPrefix a b < a.length) (hb : commonPrefix a b < b.length) :
    a[commonPrefix a b]? ≠ b[commonPrefix a b]? := by
  induction a generalizing b with
  | nil => simp at ha
  | cons x a ih =>
    cases b with
    | nil => simp at hb
    | cons y b =>
      rw [commonPrefix_cons] at ha hb ⊢
      split at ha
      · rename_i h
        rw [if_pos h] at hb ⊢
        simpa using ih b (by simpa using ha) (by simpa using hb)
      · rename_i h
        rw [if_neg h]
        simpa using h

theorem commonSuffix_le : commonSuffix a b ≤ a.length ∧ commonSuffix a b ≤ b.length := by
  simpa [commonSuffix] using commonPrefix_le a.reverse b.reverse

theorem drop_commonSuffix :
    a.drop (a.length - commonSuffix a b) = b.drop (b.length - commonSuffix a b) := by
  have h := take_commonPrefix a.reverse b.reverse
  rw [List.take_reverse, List.take_reverse, List.reverse_inj] at h
  exact h

theorem commonSuffix_stops (ha : commonSuffix a b < a.length) (hb : commonSuffix a b < b.length) :
    a[a.length - 1 - commonSuffix a b]? ≠ b[b.length - 1 - commonSuffix a b]? := by
  have h : a.reverse[commonSuffix a b]? ≠ b.reverse[commonSuffix a b]? :=
    commonPrefix_stops _ _ (by simpa [commonSuffix] using ha) (by simpa [commonSuffix] using hb)
  rw [List.getElem?_reverse ha, List.getElem?_reverse hb] at h
  exact h

end Common

end JsonLayout.Diff
