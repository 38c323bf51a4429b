import JsonLayout.Disk.Operations
import Mathlib.Tactic.Common

/-!
# The files that paths lead to

Reading and overwriting at a path is reading and replacing the file there, whatever links the path
goes through, unless the disk refuses; the directory tree stays as it is.
-/

namespace JsonLayout

variable {p : Path} {number : Nat}

namespace DirectoryTree

variable {t : DirectoryTree}

/-- The number of the file at a path, if there is one; links are followed. -/
def number? (t : DirectoryTree) (p : Path) : Option Nat :=
  match t.locate true p with
  | .ok (_, .file number) => some number
  | _ => none

theorem exists_locate_eq (h : t.number? p = some number) :
    ∃ loc, t.locate true p = .ok (loc, .file number) := by
  unfold number? at h
  split at h
  · rename_i loc n hlocate
    obtain rfl := Option.some.inj h
    exact ⟨loc, hlocate⟩
  · cases h

theorem isFile_eq_isSome (t : DirectoryTree) (p : Path) : t.isFile p = (t.number? p).isSome := by
  unfold isFile number?
  rcases t.locate true p with e | ⟨loc, e⟩
  · rfl
  · cases e <;> rfl

/-- What is located is where the path leads. -/
theorem resolve_of_locate {loc : Location} {e : Entry} (h : t.locate true p = .ok (loc, e)) :
    t.resolve true p = .ok (.existing loc) ∧ t.entry? loc = some e := by
  unfold locate at h
  split at h
  · cases h
  · cases h
  · rename_i hresolve
    split at h
    · rename_i hentry
      obtain ⟨rfl, rfl⟩ := Prod.mk.inj (Except.ok.inj h)
      exact ⟨hresolve, hentry⟩
    · cases h

end DirectoryTree

namespace Disk

variable {d : Disk} {content : ByteArray}

theorem setFile_setFile (d : Disk) (number : Nat) (f g : File) :
    (d.setFile number f).setFile number g = d.setFile number g := by
  simp only [setFile, Disk.mk.injEq, true_and, and_true]
  funext n
  split <;> rfl

theorem setFile_files (d : Disk) (number : Nat) : d.setFile number (d.files number) = d := by
  have hfiles : (fun n => if n = number then d.files number else d.files n) = d.files := by
    funext n
    split_ifs with h
    · rw [h]
    · rfl
  rw [setFile, hfiles]

@[simp]
theorem files_setFile_self (d : Disk) (number : Nat) (f : File) :
    (d.setFile number f).files number = f := by
  simp [setFile]

/-! Reading. -/

/-- The number of the file at a path, if there is one that can be read. -/
def readable? (d : Disk) (p : Path) : Option Nat :=
  (d.number? p).filter fun number => (d.refusals number).read.isNone

theorem readable?_eq_some_iff : d.readable? p = some number ↔
    d.number? p = some number ∧ (d.refusals number).read = none := by
  simp [readable?, Option.filter_eq_some_iff]

theorem number?_of_readable? (h : d.readable? p = some number) : d.number? p = some number :=
  (readable?_eq_some_iff.1 h).1

theorem read_eq (h : d.readable? p = some number) : d.read p = .ok (d.files number).content := by
  obtain ⟨hnumber, hallowed⟩ := readable?_eq_some_iff.1 h
  obtain ⟨loc, hlocate⟩ := DirectoryTree.exists_locate_eq hnumber
  simp only [read, hlocate, hallowed]

/-- Only files can be read. -/
theorem exists_number_of_read (h : d.read p = .ok content) :
    ∃ number, d.readable? p = some number := by
  unfold read at h
  split at h
  · cases h
  · rename_i number hlocate
    split at h
    · cases h
    · rename_i hallowed
      exact ⟨number, readable?_eq_some_iff.2 ⟨by rw [DirectoryTree.number?, hlocate], hallowed⟩⟩
  · cases h

theorem exists_error_of_read (h : d.readable? p = none) : ∃ e, d.read p = .error e := by
  cases hread : d.read p with
  | error e => exact ⟨e, rfl⟩
  | ok content =>
    obtain ⟨number, hnumber⟩ := exists_number_of_read hread
    cases h.symm.trans hnumber

/-! Overwriting. -/

/-- The file can be replaced by one with this content: neither step is refused, and the content is
not too long. Overwriting changes nothing of this. -/
structure Replaceable (d : Disk) (number : Nat) (content : ByteArray) : Prop where
  write : (d.refusals number).write = none
  setPermissions : (d.refusals number).setPermissions = none
  fits : ∀ limit, d.sizeLimit = some limit → content.size ≤ limit

theorem permissions_eq (h : d.number? p = some number) :
    d.permissions p = .ok (d.files number).permissions := by
  obtain ⟨loc, hlocate⟩ := DirectoryTree.exists_locate_eq h
  rw [permissions, hlocate]

theorem setPermissions_eq (h : d.number? p = some number)
    (hallowed : (d.refusals number).setPermissions = none) (permissions : Nat) :
    d.setPermissions p permissions =
      .ok (d.setFile number { d.files number with permissions }) := by
  obtain ⟨loc, hlocate⟩ := DirectoryTree.exists_locate_eq h
  simp only [Disk.setPermissions, hlocate, hallowed]

theorem setPermissions_of_refused {e : DiskError} (h : d.number? p = some number)
    (hrefused : (d.refusals number).setPermissions = some e) (permissions : Nat) :
    d.setPermissions p permissions = .error e := by
  obtain ⟨loc, hlocate⟩ := DirectoryTree.exists_locate_eq h
  simp only [Disk.setPermissions, hlocate, hrefused]

theorem write_eq (h : d.number? p = some number) (hallowed : (d.refusals number).write = none)
    (content : ByteArray) : d.write p content = d.fill number content := by
  obtain ⟨loc, hlocate⟩ := DirectoryTree.exists_locate_eq h
  obtain ⟨hresolve, hentry⟩ := DirectoryTree.resolve_of_locate hlocate
  simp only [Disk.write, hresolve, hentry, hallowed]

theorem write_of_refused {e : DiskError} (h : d.number? p = some number)
    (hrefused : (d.refusals number).write = some e) (content : ByteArray) :
    d.write p content = (d, some e) := by
  obtain ⟨loc, hlocate⟩ := DirectoryTree.exists_locate_eq h
  obtain ⟨hresolve, hentry⟩ := DirectoryTree.resolve_of_locate hlocate
  simp only [Disk.write, hresolve, hentry, hrefused]

/-- Without the size limit in the way, all of the file is filled. -/
theorem fill_eq (h : ∀ limit, d.sizeLimit = some limit → content.size ≤ limit) :
    d.fill number content =
      (d.setFile number ⟨d.keptPermissions (d.files number).permissions, content⟩, none) := by
  unfold fill
  split
  · rfl
  · rename_i limit hlimit
    rw [if_pos (h limit hlimit)]

theorem exists_fill_eq (number : Nat)
    (h : ¬ ∀ limit, d.sizeLimit = some limit → content.size ≤ limit) :
    ∃ f, d.fill number content = (d.setFile number f, some .fileTooLarge) := by
  simp only [not_forall] at h
  obtain ⟨limit, hlimit, hsize⟩ := h
  simp only [fill, hlimit, if_neg hsize]
  exact ⟨_, rfl⟩

/-- Whatever writing takes from the permissions is given back, so only the content is replaced. -/
theorem overwrite_of_replaceable (h : d.number? p = some number)
    (hreplaceable : d.Replaceable number content) :
    d.overwrite p content = (d.setFile number { d.files number with content }, none) := by
  obtain ⟨hwrite, hset, hfits⟩ := hreplaceable
  have htree : ∀ f, (d.setFile number f).number? p = some number := fun _ => h
  simp only [overwrite, permissions_eq h, write_eq h hwrite, fill_eq hfits,
    setPermissions_eq (htree _) hset, setFile_setFile, files_setFile_self]

/-- Also a failed overwriting changes no other file. -/
theorem exists_overwrite_eq (h : d.number? p = some number)
    (hnot : ¬ d.Replaceable number content) :
    ∃ f e, d.overwrite p content = (d.setFile number f, some e) := by
  have htree : ∀ f, (d.setFile number f).number? p = some number := fun _ => h
  rw [overwrite, permissions_eq h]
  cases hwrite : (d.refusals number).write with
  | some e =>
    rw [write_of_refused h hwrite]
    exact ⟨d.files number, e, by rw [setFile_files]⟩
  | none =>
    rw [write_eq h hwrite]
    by_cases hfits : ∀ limit, d.sizeLimit = some limit → content.size ≤ limit
    · obtain ⟨e, hset⟩ := Option.ne_none_iff_exists'.1 fun hset => hnot ⟨hwrite, hset, hfits⟩
      simp only [fill_eq hfits, setPermissions_of_refused (htree _) hset]
      exact ⟨_, e, rfl⟩
    · obtain ⟨f, hfill⟩ := exists_fill_eq number hfits
      exact ⟨f, .fileTooLarge, by rw [hfill]⟩

theorem overwrite_eq_none_iff (h : d.number? p = some number) :
    (d.overwrite p content).2 = none ↔ d.Replaceable number content := by
  by_cases hreplaceable : d.Replaceable number content
  · simp [overwrite_of_replaceable h hreplaceable, hreplaceable]
  · obtain ⟨f, e, hover⟩ := exists_overwrite_eq h hreplaceable
    simp [hover, hreplaceable]

/-- Between the disks there is no difference but in files that these paths lead to. -/
structure ChangedAt (d : Disk) (paths : List Path) (changed : Disk) : Prop where
  rest : changed = { d with files := changed.files }
  files : ∀ n, (∀ p ∈ paths, d.number? p ≠ some n) → changed.files n = d.files n

namespace ChangedAt

variable {changed : Disk} {paths : List Path}

theorem refl (d : Disk) (paths : List Path) : d.ChangedAt paths d := ⟨rfl, fun _ _ => rfl⟩

theorem toDirectoryTree (h : d.ChangedAt paths changed) :
    changed.toDirectoryTree = d.toDirectoryTree := by
  rw [h.rest]

theorem append {more : List Path} {after : Disk} (h : d.ChangedAt paths changed)
    (hmore : changed.ChangedAt more after) : d.ChangedAt (paths ++ more) after := by
  refine ⟨?_, fun n hn => ?_⟩
  · rw [hmore.rest, h.rest]
  · rw [List.forall_mem_append] at hn
    rw [hmore.files n (by rw [h.toDirectoryTree]; exact hn.2), h.files n hn.1]

theorem setFile (h : d.number? p = some number) (f : File) :
    d.ChangedAt [p] (d.setFile number f) := by
  refine ⟨rfl, fun n hn => if_neg ?_⟩
  rintro rfl
  exact hn p (by simp) h

end ChangedAt

end Disk

end JsonLayout
