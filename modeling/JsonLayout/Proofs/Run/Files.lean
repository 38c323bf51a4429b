import JsonLayout.Proofs.Disk.Files
import JsonLayout.Run.Expansion

/-!
# What globs find

Of what a glob finds in a directory tree, the files are kept, in order.
-/

namespace JsonLayout.Run

variable {t : DirectoryTree} {glob : String} {files : List Path}

namespace Expansion

theorem files_collect {events : List Event} {before : List Path} {found : List Glob.Found}
    (h : (collect t glob events before found).files = .ok files) :
    ∃ paths : List Path, found = paths.map .ok ∧ files = before ++ paths.filter t.isFile := by
  induction found generalizing events before with
  | nil =>
    obtain rfl : before = files := Except.ok.inj h
    exact ⟨[], rfl, by simp⟩
  | cons x found ih =>
    cases x with
    | error e => cases h
    | ok path =>
      unfold collect at h
      split at h
      · rename_i hfile
        obtain ⟨paths, rfl, rfl⟩ := ih h
        exact ⟨path :: paths, rfl, by simp [hfile]⟩
      · rename_i hfile
        obtain ⟨paths, rfl, rfl⟩ := ih h
        exact ⟨path :: paths, rfl, by simp [hfile]⟩

/-- A glob that can be expanded makes sense, and the walk along it meets no error. -/
theorem files_ofGlob (h : (ofGlob t glob).files = .ok files) :
    ∃ pattern, ∃ paths : List Path, Glob.Pattern.compile glob = .ok pattern ∧
      pattern.find t = paths.map .ok ∧ files = paths.filter t.isFile := by
  unfold ofGlob at h
  split at h
  · cases h
  · rename_i pattern hpattern
    obtain ⟨paths, hpaths, rfl⟩ := files_collect h
    exact ⟨pattern, paths, hpattern, hpaths, rfl⟩

theorem isFile_of_mem (h : (ofGlob t glob).files = .ok files) {path : Path}
    (hpath : path ∈ files) : t.isFile path = true := by
  obtain ⟨_, paths, -, -, rfl⟩ := files_ofGlob h
  exact (List.mem_filter.1 hpath).2

/-- The numbers of the files. -/
theorem exists_numbers (h : (ofGlob t glob).files = .ok files) :
    ∃ numbers : List Nat, files.map t.number? = numbers.map some := by
  have hfiles : ∀ path ∈ files, (t.number? path).isSome := fun path hpath => by
    rw [← t.isFile_eq_isSome, isFile_of_mem h hpath]
  refine ⟨files.filterMap t.number?, ?_⟩
  clear h
  induction files with
  | nil => rfl
  | cons path files ih =>
    obtain ⟨number, hnumber⟩ := Option.isSome_iff_exists.1 (hfiles path (by simp))
    rw [List.map_cons, List.filterMap_cons_some hnumber, List.map_cons, hnumber,
      ih fun path hpath => hfiles path (by simp [hpath])]

end Expansion

/-- The files of all globs, in order, a file as often as it is found. -/
def filesOf (t : DirectoryTree) : List String → Except Failure (List Path)
  | [] => .ok []
  | glob :: globs => do
      let files ← (Expansion.ofGlob t glob).files
      let more ← filesOf t globs
      return files ++ more

theorem filesOf_cons_eq_ok_iff {globs : List String} {found : List Path} :
    filesOf t (glob :: globs) = .ok found ↔
      ∃ files more, (Expansion.ofGlob t glob).files = .ok files ∧ filesOf t globs = .ok more ∧
        found = files ++ more := by
  rw [filesOf]
  rcases (Expansion.ofGlob t glob).files with e | files
  · simp [bind, Except.bind]
  · rcases filesOf t globs with e | more
    · simp [bind, Except.bind]
    · simp [bind, Except.bind, pure, Except.pure, eq_comm]

end JsonLayout.Run
