import JsonLayout.Proofs.Disk.Files
import JsonLayout.Proofs.Json.Bytes
import Mathlib.Data.Finset.Card

/-!
# Disks with files in canonical form

Some files of a disk are brought into canonical form, each at most once, and nothing else changes.
-/

namespace JsonLayout

namespace File

variable {f : File} {out : String}

/-- The file with what it holds in canonical form, if that has one. -/
def formatted (f : File) : File :=
  match Json.formatBytes f.content with
  | .ok out => { f with content := out.toByteArray }
  | .error _ => f

theorem formatted_eq (h : Json.formatBytes f.content = .ok out) :
    f.formatted = ⟨f.permissions, out.toByteArray⟩ := by
  rw [formatted, h]

theorem formatted_of_isCanonical (h : Json.IsCanonical f.content) : f.formatted = f := by
  obtain ⟨out, hformat, hout⟩ := h
  rw [formatted_eq hformat, hout]

end File

namespace Disk

variable {d : Disk} {numbers : List Nat} {number : Nat}

/-- The disk with these files in canonical form. -/
def formatted (d : Disk) (numbers : List Nat) : Disk :=
  { d with files := fun n => if n ∈ numbers then (d.files n).formatted else d.files n }

/-- There is a file at the path that can be read, and what it holds has a canonical form. -/
def FormatsAt (d : Disk) (p : Path) : Prop :=
  ∃ number out, d.readable? p = some number ∧ Json.formatBytes (d.files number).content = .ok out

/-- There is a file at the path that can be read, and it is in canonical form. -/
def CanonicalAt (d : Disk) (p : Path) : Prop :=
  ∃ number, d.readable? p = some number ∧ Json.IsCanonical (d.files number).content

theorem canonicalAt_iff {p : Path} (h : d.readable? p = some number) :
    d.CanonicalAt p ↔ Json.IsCanonical (d.files number).content := by
  simp [CanonicalAt, h]

instance (d : Disk) : DecidablePred d.CanonicalAt := fun p =>
  match h : d.readable? p with
  | some _ => decidable_of_iff _ (canonicalAt_iff h).symm
  | none => .isFalse fun ⟨_, hnumber, _⟩ => nomatch h.symm.trans hnumber

/-- What can be read at the path has a canonical form, and that can be written there. -/
def OverwritesAt (d : Disk) (p : Path) : Prop :=
  ∃ number out, d.readable? p = some number ∧
    Json.formatBytes (d.files number).content = .ok out ∧ (d.overwrite p out.toByteArray).2 = none

theorem formatsAt_iff {p : Path} (h : d.readable? p = some number) :
    d.FormatsAt p ↔ ∃ out, Json.formatBytes (d.files number).content = .ok out := by
  simp [FormatsAt, h]

instance (d : Disk) : DecidablePred d.FormatsAt := fun p =>
  match hnumber : d.readable? p with
  | none => .isFalse fun ⟨_, _, h, _⟩ => nomatch hnumber.symm.trans h
  | some number =>
      match hformat : Json.formatBytes (d.files number).content with
      | .ok out => .isTrue ⟨number, out, hnumber, hformat⟩
      | .error _ => .isFalse fun h =>
          have ⟨_, hout⟩ := (formatsAt_iff hnumber).1 h
          nomatch hformat.symm.trans hout

/-- Those of the files that are not canonical. -/
def unformatted (d : Disk) (numbers : List Nat) : Finset Nat :=
  numbers.toFinset.filter fun n => ¬ Json.IsCanonical (d.files n).content

theorem files_formatted_of_mem (h : number ∈ numbers) :
    (d.formatted numbers).files number = (d.files number).formatted := if_pos h

theorem files_formatted_of_not_mem (h : number ∉ numbers) :
    (d.formatted numbers).files number = d.files number := if_neg h

theorem formatted_nil (d : Disk) : d.formatted [] = d := by
  simp [formatted]

/-- A file is brought into canonical form once, and only if it is not in it. -/
theorem formatted_concat (h : number ∈ numbers ∨ Json.IsCanonical (d.files number).content) :
    d.formatted (numbers ++ [number]) = d.formatted numbers := by
  simp only [formatted, Disk.mk.injEq, true_and, and_true]
  funext n
  by_cases hn : n = number
  · rcases h with h | h
    · simp [hn, h]
    · simp [hn, File.formatted_of_isCanonical h]
  · simp [hn]

theorem unformatted_concat (h : number ∈ numbers ∨ Json.IsCanonical (d.files number).content) :
    d.unformatted (numbers ++ [number]) = d.unformatted numbers := by
  ext n
  simp only [unformatted, Finset.mem_filter, List.mem_toFinset, List.mem_append,
    List.mem_singleton]
  constructor
  · rintro ⟨hn | rfl, hcanonical⟩
    · exact ⟨hn, hcanonical⟩
    · exact ⟨h.resolve_right hcanonical, hcanonical⟩
  · rintro ⟨hn, hcanonical⟩
    exact ⟨.inl hn, hcanonical⟩

theorem setFile_formatted {out : String}
    (h : Json.formatBytes (d.files number).content = .ok out) :
    (d.formatted numbers).setFile number { d.files number with content := out.toByteArray } =
      d.formatted (numbers ++ [number]) := by
  simp only [formatted, setFile, Disk.mk.injEq, true_and, and_true]
  funext n
  by_cases hn : n = number
  · simp [hn, File.formatted_eq h]
  · simp [hn]

theorem card_unformatted_concat (hnumber : number ∉ numbers)
    (h : ¬ Json.IsCanonical (d.files number).content) :
    (d.unformatted (numbers ++ [number])).card = (d.unformatted numbers).card + 1 := by
  have hinsert : d.unformatted (numbers ++ [number]) = insert number (d.unformatted numbers) := by
    ext n
    simp only [unformatted, Finset.mem_insert, Finset.mem_filter, List.mem_toFinset,
      List.mem_append, List.mem_singleton]
    by_cases hn : n = number
    · simp [hn, h]
    · simp [hn]
  rw [hinsert, Finset.card_insert_of_notMem (by simp [unformatted, hnumber])]

end Disk

end JsonLayout
