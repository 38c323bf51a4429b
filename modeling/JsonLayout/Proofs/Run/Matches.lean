import JsonLayout.Proofs.Glob.Counting
import JsonLayout.Proofs.Run.Files

/-!
# Which files a glob names

In a tree without links in which every directory can be listed, a glob finds the files whose names
match its parts, and no others.
-/

namespace JsonLayout.Run

open DirectoryTree (isName)

variable {t : DirectoryTree} {glob : String}

theorem Expansion.exists_files_collect {events : List Event} {before : List Path}
    {found : List Glob.Found} (h : ∀ f ∈ found, ∃ path, f = .ok path) :
    ∃ files, (collect t glob events before found).files = .ok files := by
  induction found generalizing events before with
  | nil => exact ⟨before, rfl⟩
  | cons f found ih =>
    obtain ⟨⟨path, rfl⟩, hfound⟩ := List.forall_mem_cons.mp h
    unfold collect
    split
    · exact ih hfound
    · exact ih hfound

/-- Where no walk meets an error, a glob gives the files that the walk along its pattern finds. -/
theorem Expansion.exists_files_ofGlob {pattern : Glob.Pattern}
    (hpattern : Glob.Pattern.compile glob = .ok pattern)
    (h : ∀ f ∈ pattern.find t, ∃ path, f = .ok path) :
    ∃ files, (ofGlob t glob).files = .ok files ∧
      ∀ path, path ∈ files ↔ .ok path ∈ pattern.find t ∧ t.isFile path = true := by
  obtain ⟨files, hfiles⟩ : ∃ files, (ofGlob t glob).files = .ok files := by
    unfold ofGlob
    rw [hpattern]
    exact exists_files_collect h
  obtain ⟨pattern', paths, hpattern', hpaths, rfl⟩ := files_ofGlob hfiles
  cases hpattern.symm.trans hpattern'
  exact ⟨_, hfiles, fun path => by simp [hpaths]⟩

/-- No walk along ordinary parts meets an error. -/
theorem Expansion.exists_files_of_ordinary {pattern : Glob.Pattern} (ht : t.Listable)
    (hpattern : Glob.Pattern.compile glob = .ok pattern)
    (hparts : ∀ part ∈ glob.toList.splitOn '/', Glob.Ordinary part) :
    ∃ files, (ofGlob t glob).files = .ok files ∧
      ∀ path, path ∈ files ↔ .ok path ∈ pattern.find t ∧ t.isFile path = true := by
  refine exists_files_ofGlob hpattern fun f hf => ?_
  obtain ⟨names, hf, -⟩ := Glob.exists_names_of_mem_find hpattern hparts ht hf
  exact ⟨_, hf⟩

/-- A glob whose parts are all ordinary finds the regular files below the working directory whose
names match its parts in order. -/
theorem mem_files_ofGlob_iff {pattern : Glob.Pattern} (ht : t.Listable)
    (hpattern : Glob.Pattern.compile glob = .ok pattern)
    (hparts : ∀ part ∈ glob.toList.splitOn '/', Glob.Ordinary part) :
    ∃ files, (Expansion.ofGlob t glob).files = .ok files ∧ ∀ path, path ∈ files ↔
      t.isFile path = true ∧ (∀ name ∈ path.segments, isName name = true) ∧
        Glob.PathMatches (glob.toList.splitOn '/') path.segments := by
  have hfound : ∀ f ∈ pattern.find t, ∃ path, f = .ok path := by
    intro f hf
    obtain ⟨names, hf, -⟩ := Glob.exists_names_of_mem_find hpattern hparts ht hf
    exact ⟨_, hf⟩
  obtain ⟨files, hfiles, hmem⟩ := Expansion.exists_files_ofGlob hpattern hfound
  refine ⟨files, hfiles, fun path => (hmem path).trans ⟨?_, ?_⟩⟩
  · rintro ⟨hpath, hfile⟩
    obtain ⟨names, hf, hnames, hne⟩ := Glob.exists_names_of_mem_find hpattern hparts ht hpath
    obtain rfl := Except.ok.inj hf
    rw [Path.segments_ofNames hnames hne]
    exact ⟨hfile, hnames, (Glob.mem_find_iff hpattern hparts ht hnames hfile).mp hpath⟩
  · rintro ⟨hfile, hnames, hmatches⟩
    have hne : path.segments ≠ [] := by simp [Path.segments]
    have hpath : path = .ofNames path.segments :=
      Path.segments_injective (Path.segments_ofNames hnames hne).symm
    rw [hpath] at hfile
    have hfound := (Glob.mem_find_iff hpattern hparts ht hnames hfile).mpr hmatches
    rw [← hpath] at hfound hfile
    exact ⟨hfound, hfile⟩

/-- A file right in the directory that is named is found, and one that lies deeper. -/
theorem mem_files_ofGlob_iff_nested :
    let t : DirectoryTree := {
      entries := [([], .directory 0o755), (["a.json"], .file 0), (["src"], .directory 0o755),
        (["b.json", "src"], .file 1), (["lib", "src"], .directory 0o755),
        (["c.json", "lib", "src"], .file 2)]
      here := [] }
    let glob := "src/**/?*.json"
    let pattern : Glob.Pattern := ⟨false, [.name "src", .anyDirectories,
      .wild [.anyChar, .anySequence, .char '.', .char 'j', .char 's', .char 'o', .char 'n']], false⟩
    t.Listable ∧ Glob.Pattern.compile glob = .ok pattern ∧
      (∀ part ∈ glob.toList.splitOn '/', Glob.Ordinary part) ∧
      ∃ files, (Expansion.ofGlob t glob).files = .ok files ∧ ∀ path, path ∈ files ↔
        t.isFile path = true ∧ (∀ name ∈ path.segments, isName name = true) ∧
          Glob.PathMatches (glob.toList.splitOn '/') path.segments := by
  intro t glob pattern
  have hlinks : t.LinkFree := by
    intro names target h
    simpa [t] using DirectoryTree.mem_entries_of_eq h.entry_eq
  have ht : t.Listable := by
    refine hlinks.listable (fun names permissions h => ?_) fun _ => rfl
    have hentry : names = [] ∧ permissions = 0o755 ∨ names = ["src"] ∧ permissions = 0o755 ∨
        names = ["src", "lib"] ∧ permissions = 0o755 := by
      simpa [t] using DirectoryTree.mem_entries_of_eq h.entry_eq
    rcases hentry with ⟨rfl, -⟩ | ⟨rfl, -⟩ | ⟨rfl, -⟩ <;> decide
  have hpattern : Glob.Pattern.compile glob = .ok pattern := by
    simp [glob, Glob.Pattern.compile, Glob.Token.compile, Glob.Token.compileFrom, Glob.splitFrom,
      Glob.Component.ofTokens, Glob.Token.literal?]
    rfl
  have hparts : ∀ part ∈ glob.toList.splitOn '/', Glob.Ordinary part := by
    decide
  exact ⟨ht, hpattern, hparts, mem_files_ofGlob_iff ht hpattern hparts⟩

end JsonLayout.Run
