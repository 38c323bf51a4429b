import JsonLayout.Proofs.Glob.Counting
import JsonLayout.Proofs.Run.Check
import JsonLayout.Proofs.Run.Handled
import JsonLayout.Proofs.Run.Order
import Mathlib

/-!
# How often a file is met

A glob gives a file once for each way in which the names of the file match its parts, and a run
handles the file as often. That is at most once where every `**` stands next to the others.
-/

namespace JsonLayout.Run

open DirectoryTree (isName)

variable {t : DirectoryTree} {glob : String} {pattern : Glob.Pattern} {files : List Path}

/-- Keeping the files keeps each as often as it is found. -/
theorem Expansion.count_files (hpattern : Glob.Pattern.compile glob = .ok pattern)
    (hfiles : (ofGlob t glob).files = .ok files) {path : Path} (hfile : t.isFile path = true) :
    files.count path = (pattern.find t).count (.ok path) := by
  obtain ⟨pattern', paths, hpattern', hpaths, rfl⟩ := files_ofGlob hfiles
  cases hpattern.symm.trans hpattern'
  rw [List.count_filter hfile, hpaths, List.count_map_of_injective _ _ fun _ _ => Except.ok.inj]

section Ways

variable (ht : t.Listable) (hpattern : Glob.Pattern.compile glob = .ok pattern)
  (hparts : ∀ part ∈ glob.toList.splitOn '/', Glob.Ordinary part)

include ht hpattern hparts

theorem Expansion.isName_of_mem_files (hfiles : (ofGlob t glob).files = .ok files) {path : Path}
    (h : path ∈ files) : ∀ name ∈ path.segments, isName name = true := by
  obtain ⟨pattern', paths, hpattern', hpaths, rfl⟩ := files_ofGlob hfiles
  cases hpattern.symm.trans hpattern'
  have hfound : .ok path ∈ pattern.find t := by
    rw [hpaths]
    exact List.mem_map_of_mem (List.mem_filter.mp h).1
  obtain ⟨names, hpath, hnames, hne⟩ := Glob.exists_names_of_mem_find hpattern hparts ht hfound
  rwa [Except.ok.inj hpath, Path.segments_ofNames hnames hne]

theorem Expansion.count_files_eq_encard (hfiles : (ofGlob t glob).files = .ok files) (path : Path) :
    (files.count path : ℕ∞) =
      {taken ∈ Glob.ways (glob.toList.splitOn '/') path.segments |
        t.isFile path = true ∧ ∀ name ∈ path.segments, isName name = true}.encard := by
  by_cases hpath : t.isFile path = true ∧ ∀ name ∈ path.segments, isName name = true
  · obtain ⟨hfile, hnames⟩ := hpath
    have hcount := Glob.count_find hpattern hparts ht hnames
      ((Path.ofNames_segments hnames).symm ▸ hfile)
    rw [Path.ofNames_segments hnames] at hcount
    rw [count_files hpattern hfiles hfile, hcount, Set.sep_eq_self_iff_mem_true.mpr fun _ _ => ?_]
    exact ⟨hfile, hnames⟩
  · have hnot : path ∉ files := fun hmem => hpath
      ⟨isFile_of_mem hfiles hmem, isName_of_mem_files ht hpattern hparts hfiles hmem⟩
    simp [List.count_eq_zero.mpr hnot, hpath]

end Ways

/-- The files of a glob whose parts are all ordinary hold each path once for each way in which its
names match the parts, so no path comes twice if no part stands between two `**`. In either mode, a
run over the glob handles these files in turn and counts and reports them as often as it handles
them; if it does not fail, it handles all of them, and in check mode it reports those that are not
canonical. -/
theorem count_files_ofGlob (d : Disk) (ht : d.toDirectoryTree.Listable)
    (hpattern : Glob.Pattern.compile glob = .ok pattern)
    (hparts : ∀ part ∈ glob.toList.splitOn '/', Glob.Ordinary part) :
    ∃ files, (Expansion.ofGlob d glob).files = .ok files ∧
      (∀ path : Path, (files.count path : ℕ∞) =
        {taken ∈ Glob.ways (glob.toList.splitOn '/') path.segments |
          d.isFile path = true ∧ ∀ name ∈ path.segments, isName name = true}.encard) ∧
      (Glob.Together (glob.toList.splitOn '/') → files.Nodup) ∧
      (∀ mode, InTurn files (run d [glob] mode)) ∧
      ((run d [glob] .check).failure = none →
        (run d [glob] .check).reports.map Prod.fst =
          files.filter fun path => ¬ d.CanonicalAt path) := by
  obtain ⟨files, hfiles, -⟩ := Expansion.exists_files_of_ordinary ht hpattern hparts
  have hcount := Expansion.count_files_eq_encard ht hpattern hparts hfiles
  refine ⟨files, hfiles, hcount, fun htogether => ?_, fun mode => .run_singleton hfiles,
    fun hfailure => ?_⟩
  · refine List.nodup_iff_count_le_one.mpr fun path => ?_
    have hways : (Glob.ways (glob.toList.splitOn '/') path.segments).encard ≤ 1 :=
      Set.encard_le_one_iff_subsingleton.mpr (Glob.subsingleton_ways htogether)
    have hle : (files.count path : ℕ∞) ≤ 1 :=
      (hcount path).trans_le ((Set.encard_le_encard (Set.sep_subset _ _)).trans hways)
    exact_mod_cast hle
  · have hplain : (run d [glob] .check).plain = visitAll d files .check :=
      plain_run_singleton hfiles
    have hvisited : (visitAll d files .check).failure = none := hplain ▸ hfailure
    obtain ⟨-, -, hsummary, hpaths, -⟩ := hplain ▸ Checked.visitAll hvisited
    exact hpaths.trans (congrArg Summary.differing hsummary)

/-- A file below two directories of one name. -/
def nestedDisk : Disk where
  entries := [([], .directory 0o755), (["lib"], .directory 0o755),
    (["lib", "lib"], .directory 0o755), (["a.json", "lib", "lib"], .file 0)]
  here := []
  files := fun _ => ⟨0o644, "[ ]".toByteArray⟩

def nestedFile : Path := ⟨"a.json", ["lib", "lib"]⟩

/-- Between two `**` stands a part that both directories match. -/
def nestedGlob : String := "**/lib/**/a.json"

theorem listable_nestedDisk : nestedDisk.toDirectoryTree.Listable :=
  DirectoryTree.listable_of_entries rfl (fun _ => rfl) (by decide)

theorem compile_nestedGlob : Glob.Pattern.compile nestedGlob =
    .ok ⟨false, [.anyDirectories, .name "lib", .anyDirectories, .name "a.json"], false⟩ := by
  simp [nestedGlob, Glob.Pattern.compile, Glob.Token.compile, Glob.Token.compileFrom,
    Glob.splitFrom, Glob.Component.ofTokens, Glob.Token.literal?]
  rfl

theorem isFile_nestedFile : nestedDisk.isFile nestedFile = true := by
  have hroot : nestedDisk.Leads [] (.directory 0o755) := .here rfl
  have hlib : nestedDisk.Leads ["lib"] (.directory 0o755) := hroot.into (by decide) rfl
  have hdeeper : nestedDisk.Leads ["lib", "lib"] (.directory 0o755) := hlib.into (by decide) rfl
  exact (DirectoryTree.isFile_ofNames_iff listable_nestedDisk.linkFree (by decide)).mpr
    ⟨⟨0, hdeeper.into (by decide) rfl⟩, by decide⟩

/-- Either `**` can take one of the directories, so there are two ways, and the file comes twice. -/
theorem count_files_ofGlob_nested :
    nestedDisk.toDirectoryTree.Listable ∧
      (∃ pattern, Glob.Pattern.compile nestedGlob = .ok pattern) ∧
      (∀ part ∈ nestedGlob.toList.splitOn '/', Glob.Ordinary part) ∧
      ∃ files, (Expansion.ofGlob nestedDisk nestedGlob).files = .ok files ∧
        1 < files.count nestedFile := by
  have hparts : ∀ part ∈ nestedGlob.toList.splitOn '/', Glob.Ordinary part := by decide
  have hlib : Glob.NameMatches "lib".toList "lib".toList := .refl (by simp [Glob.wildcards])
  have hfile : Glob.MatchesTaking ["a.json".toList] ["a.json"] [] :=
    .one (by decide) (.refl (by simp [Glob.wildcards])) .nil
  have hnone : Glob.MatchesTaking [Glob.recursive, "a.json".toList] ["a.json"] [0] :=
    (Glob.MatchesTaking.directories_iff (by decide)).mpr ⟨[], _, _, rfl, by simp, rfl, hfile⟩
  have hone : Glob.MatchesTaking [Glob.recursive, "a.json".toList] ["lib", "a.json"] [1] :=
    (Glob.MatchesTaking.directories_iff (by decide)).mpr ⟨["lib"], _, _, rfl, by simp, rfl, hfile⟩
  have hlower : [0, 1] ∈ Glob.ways (nestedGlob.toList.splitOn '/') nestedFile.segments :=
    (Glob.MatchesTaking.directories_iff (by decide)).mpr
      ⟨[], _, _, rfl, by decide, rfl, .one (by decide) hlib hone⟩
  have hupper : [1, 0] ∈ Glob.ways (nestedGlob.toList.splitOn '/') nestedFile.segments :=
    (Glob.MatchesTaking.directories_iff (by decide)).mpr
      ⟨["lib"], _, _, rfl, by simp, rfl, .one (by decide) hlib hnone⟩
  obtain ⟨files, hfiles, hcount, -⟩ :=
    count_files_ofGlob nestedDisk listable_nestedDisk compile_nestedGlob hparts
  refine ⟨listable_nestedDisk, ⟨_, compile_nestedGlob⟩, hparts, files, hfiles, ?_⟩
  have hpath : nestedDisk.isFile nestedFile = true ∧
      ∀ name ∈ nestedFile.segments, isName name = true := ⟨isFile_nestedFile, by decide⟩
  have htwo : (1 : ℕ∞) < files.count nestedFile := by
    rw [hcount, Set.one_lt_encard_iff]
    exact ⟨_, _, ⟨hlower, hpath⟩, ⟨hupper, hpath⟩, by simp⟩
  exact_mod_cast htwo

/-- The file is found twice, and is counted and reported twice although there is one. -/
theorem nested_file_found_twice :
    let after := run nestedDisk [nestedGlob] .check
    nestedDisk.toDirectoryTree.Listable ∧
      (∃ pattern, Glob.Pattern.compile nestedGlob = .ok pattern) ∧
      (∀ part ∈ nestedGlob.toList.splitOn '/', Glob.Ordinary part) ∧
      (Expansion.ofGlob nestedDisk nestedGlob).files = .ok [nestedFile, nestedFile] ∧
      after.failure = none ∧ after.summary.checked = 2 ∧
      after.reports.map Prod.fst = [nestedFile, nestedFile] := by
  intro after
  have hfound : Glob.Pattern.find
      ⟨false, [.anyDirectories, .name "lib", .anyDirectories, .name "a.json"], false⟩ nestedDisk =
      [nestedFile, nestedFile].map .ok := by
    have hnames : Glob.namesBelow nestedDisk [] = ["lib"] := by cbv
    have hlib : Glob.namesBelow nestedDisk ["lib"] = ["lib"] := by cbv
    have hdeeper : Glob.namesBelow nestedDisk ["lib", "lib"] = ["a.json"] := by cbv
    have hnone : Glob.namesBelow nestedDisk ["lib", "lib", "a.json"] = [] :=
      Glob.namesBelow_of_not_isDirectory (Glob.isDirectory_of_isFile isFile_nestedFile)
    rw [Glob.find_eq_foundBelow (by simp)]
    simp (disch := decide) [Glob.foundBelow_anyDirectories listable_nestedDisk, Glob.foundAfter,
      hnames, hlib, hdeeper, hnone, Glob.foundBelow_nil]
    decide
  have hall : [nestedFile, nestedFile].filter nestedDisk.isFile = [nestedFile, nestedFile] := by
    rw [List.filter_eq_self]
    simpa using isFile_nestedFile
  have hfiles : (Expansion.ofGlob nestedDisk nestedGlob).files = .ok [nestedFile, nestedFile] := by
    rw [Expansion.files_eq_filter compile_nestedGlob hfound, hall]
  obtain ⟨number, hnumber⟩ : ∃ number, nestedDisk.number? nestedFile = some number := by
    rw [← Option.isSome_iff_exists, ← nestedDisk.isFile_eq_isSome]
    exact isFile_nestedFile
  have hreadable : nestedDisk.readable? nestedFile = some number :=
    Disk.readable?_eq_some_iff.mpr ⟨hnumber, rfl⟩
  have hformat : Json.formatBytes (nestedDisk.files number).content = .ok "[]\n" := by cbv
  have hnot : ¬ nestedDisk.CanonicalAt nestedFile := by
    rw [Disk.canonicalAt_iff hreadable, Json.isCanonical_iff hformat]
    simp [nestedDisk, String.toByteArray_inj]
  have hplain : after.plain = visitAll nestedDisk [nestedFile, nestedFile] .check :=
    plain_run_singleton hfiles
  have hfailure : (visitAll nestedDisk [nestedFile, nestedFile] .check).failure = none :=
    failure_visitAll_check (by simpa using ⟨number, _, hreadable, hformat⟩)
  obtain ⟨-, -, hsummary, hpaths, -⟩ := hplain ▸ Checked.visitAll hfailure
  replace hsummary : after.summary = ⟨2, 0, [nestedFile, nestedFile]⟩ :=
    hsummary.trans (by simp [hnot])
  refine ⟨listable_nestedDisk, ⟨_, compile_nestedGlob⟩, by decide, hfiles, ?_, ?_, ?_⟩
  · exact (congrArg Progress.failure hplain).trans hfailure
  · rw [hsummary]
  · exact hpaths.trans (congrArg Summary.differing hsummary)

end JsonLayout.Run
