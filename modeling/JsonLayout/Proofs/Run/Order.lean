import JsonLayout.Proofs.Glob.Order
import JsonLayout.Proofs.Run.Handled
import JsonLayout.Proofs.Run.Matches
import Mathlib

/-!
# In which order files are met

A glob whose only `**`, if any, stands right before its last part gives its files in ascending
order, whatever the order in which the tree holds them; so a run handles and reports them in that
order, each once.
-/

namespace JsonLayout.Run

open DirectoryTree (isName)

variable {t t' : DirectoryTree} {glob : String} {pattern : Glob.Pattern} {files : List Path}

/-- Of the paths that are found, the files are kept. -/
theorem Expansion.files_eq_filter {paths : List Path}
    (hpattern : Glob.Pattern.compile glob = .ok pattern)
    (hpaths : pattern.find t = paths.map .ok) :
    (ofGlob t glob).files = .ok (paths.filter t.isFile) := by
  have hok : ∀ f ∈ pattern.find t, ∃ path, f = .ok path := by
    rw [hpaths]
    exact List.forall_mem_map.mpr fun path _ => ⟨path, rfl⟩
  obtain ⟨files, hfiles, -⟩ := exists_files_ofGlob hpattern hok
  obtain ⟨pattern', paths', hpattern', hpaths', rfl⟩ := files_ofGlob hfiles
  cases hpattern.symm.trans hpattern'
  have hmap : (paths.map .ok : List Glob.Found) = paths'.map .ok := hpaths.symm.trans hpaths'
  rw [hfiles, List.map_injective_iff.mpr (fun _ _ => Except.ok.inj) hmap]

/-- What is found in order is in order once the files are kept. -/
theorem Expansion.pairwise_files (hpattern : Glob.Pattern.compile glob = .ok pattern)
    (hfiles : (ofGlob t glob).files = .ok files) (h : (pattern.find t).Pairwise Glob.InOrder) :
    files.Pairwise Path.Precedes := by
  obtain ⟨pattern', paths, hpattern', hpaths, rfl⟩ := files_ofGlob hfiles
  cases hpattern.symm.trans hpattern'
  rw [hpaths, List.pairwise_map] at h
  refine (h.imp fun hinOrder => ?_).filter _
  obtain ⟨p, q, hp, hq, hprecedes⟩ := hinOrder
  cases hp
  cases hq
  exact hprecedes

/-- Which files are found depends on nothing but which files there are. -/
theorem mem_find_of_isFile_eq (ht : t.Listable) (ht' : t'.Listable)
    (hpattern : Glob.Pattern.compile glob = .ok pattern)
    (hparts : ∀ part ∈ glob.toList.splitOn '/', Glob.Ordinary part)
    (hsame : ∀ names, (∀ name ∈ names, isName name = true) →
      t'.isFile (.ofNames names) = t.isFile (.ofNames names))
    {path : Path} (hfound : .ok path ∈ pattern.find t) (hfile : t.isFile path = true) :
    .ok path ∈ pattern.find t' ∧ t'.isFile path = true := by
  obtain ⟨names, hpath, hnames, -⟩ := Glob.exists_names_of_mem_find hpattern hparts ht hfound
  obtain rfl := Except.ok.inj hpath
  have hfile' : t'.isFile (.ofNames names) = true := (hsame names hnames).trans hfile
  have hmatches := (Glob.mem_find_iff hpattern hparts ht hnames hfile).mp hfound
  exact ⟨(Glob.mem_find_iff hpattern hparts ht' hnames hfile').mpr hmatches, hfile'⟩

/-- The files of such a glob come in ascending order, and none comes twice. Any other tree with the
same files below the working directory gives the same files in the same order. In either mode, a
run over the glob handles and reports files in that order and handles none twice. -/
theorem files_ofGlob_ascending (d : Disk) (glob : String) (ht : d.toDirectoryTree.Listable)
    (hpattern : Glob.Pattern.compile glob = .ok pattern)
    (hparts : ∀ part ∈ glob.toList.splitOn '/', Glob.Ordinary part)
    (hshape : Glob.OnlyBeforeLast Glob.recursive (glob.toList.splitOn '/')) :
    ∃ files, (Expansion.ofGlob d glob).files = .ok files ∧
      files.Pairwise Path.Precedes ∧ files.Nodup ∧
      (∀ t' : DirectoryTree, t'.Listable →
        (∀ names, (∀ name ∈ names, isName name = true) →
          t'.isFile (.ofNames names) = d.isFile (.ofNames names)) →
        (Expansion.ofGlob t' glob).files = .ok files) ∧
      ∀ mode,
        let after := run d [glob] mode
        after.handled.Pairwise Path.Precedes ∧ after.handled.Nodup ∧
          (after.reports.map Prod.fst).Pairwise Path.Precedes := by
  have hascending : ∀ {t : DirectoryTree} {files}, t.Listable →
      (Expansion.ofGlob t glob).files = .ok files → files.Pairwise Path.Precedes :=
    fun ht hfiles =>
      Expansion.pairwise_files hpattern hfiles (Glob.pairwise_find hpattern hparts hshape ht)
  obtain ⟨files, hfiles, hmem⟩ := Expansion.exists_files_of_ordinary ht hpattern hparts
  have hfilesAscending := hascending ht hfiles
  refine ⟨files, hfiles, hfilesAscending, hfilesAscending.nodup, fun t' ht' hsame => ?_,
    fun mode => ?_⟩
  · obtain ⟨files', hfiles', hmem'⟩ := Expansion.exists_files_of_ordinary ht' hpattern hparts
    rw [hfiles', (hascending ht' hfiles').eq_of_mem_iff hfilesAscending fun path => ?_]
    rw [hmem, hmem']
    have hsame' := fun names hnames => (hsame names hnames).symm
    exact ⟨fun h => mem_find_of_isFile_eq ht' ht hpattern hparts hsame' h.1 h.2,
      fun h => mem_find_of_isFile_eq ht ht' hpattern hparts hsame h.1 h.2⟩
  · have hturn : InTurn files (run d [glob] mode) := .run_singleton hfiles
    have hhandled := hfilesAscending.sublist hturn.handled.sublist
    exact ⟨hhandled, hhandled.nodup, hhandled.sublist hturn.reports⟩

/-- A directory comes before a longer name that begins with its own, and so does all that is in it,
although a slash comes after a dot. -/
theorem files_ofGlob_ascending_default :
    let d : Disk := {
      entries := [([], .directory 0o755), (["a.json"], .file 0), (["a"], .directory 0o755),
        (["x.json", "a"], .file 1)]
      here := []
      files := fun _ => ⟨0o644, "[ ]".toByteArray⟩ }
    let pattern : Glob.Pattern := ⟨false, [.anyDirectories,
      .wild [.anySequence, .char '.', .char 'j', .char 's', .char 'o', .char 'n']], false⟩
    let files : List Path := [⟨"x.json", ["a"]⟩, ⟨"a.json", []⟩]
    d.toDirectoryTree.Listable ∧ Glob.Pattern.compile defaultGlob = .ok pattern ∧
      (∀ part ∈ defaultGlob.toList.splitOn '/', Glob.Ordinary part) ∧
      Glob.OnlyBeforeLast Glob.recursive (defaultGlob.toList.splitOn '/') ∧
      (Expansion.ofGlob d defaultGlob).files = .ok files ∧ files.Pairwise Path.Precedes ∧
      ((run d [defaultGlob] .check).reports.map Prod.fst).Pairwise Path.Precedes := by
  intro d pattern files
  have ht : d.toDirectoryTree.Listable :=
    DirectoryTree.listable_of_entries rfl (fun _ => rfl) (by decide)
  have hpattern : Glob.Pattern.compile defaultGlob = .ok pattern := by
    simp [defaultGlob, Glob.Pattern.compile, Glob.Token.compile, Glob.Token.compileFrom,
      Glob.splitFrom, Glob.Component.ofTokens, Glob.Token.literal?]
    rfl
  have hparts : ∀ part ∈ defaultGlob.toList.splitOn '/', Glob.Ordinary part := by decide
  have hshape : Glob.OnlyBeforeLast Glob.recursive (defaultGlob.toList.splitOn '/') :=
    .last (by decide)
  have hroot : d.Leads [] (.directory 0o755) := .here rfl
  have hdirectory : d.Leads ["a"] (.directory 0o755) := hroot.into (by decide) rfl
  have hupper : d.isFile (.ofNames ["a.json"]) = true :=
    (DirectoryTree.isFile_ofNames_iff ht.linkFree (by decide)).mpr
      ⟨⟨0, hroot.into (by decide) rfl⟩, by decide⟩
  have hlower : d.isFile (.ofNames ["a", "x.json"]) = true :=
    (DirectoryTree.isFile_ofNames_iff ht.linkFree (by decide)).mpr
      ⟨⟨1, hdirectory.into (by decide) rfl⟩, by decide⟩
  have hfound : pattern.find d = files.map .ok := by
    have hnames : Glob.namesBelow d [] = ["a", "a.json"] := by cbv
    have hdeeper : Glob.namesBelow d ["a"] = ["x.json"] := by cbv
    have hnone : ∀ {names}, d.isFile (.ofNames names) = true → Glob.namesBelow d names = [] :=
      fun hfile => Glob.namesBelow_of_not_isDirectory (Glob.isDirectory_of_isFile hfile)
    rw [Glob.find_eq_foundBelow (by simp)]
    simp (disch := decide) [Glob.foundBelow_anyDirectories ht, Glob.foundAfter, hnames, hdeeper,
      hnone hupper, hnone hlower, Glob.foundBelow_nil]
    decide
  have hfiles : (Expansion.ofGlob d defaultGlob).files = .ok files := by
    have hall : files.filter d.isFile = files := by
      rw [List.filter_eq_self]
      simpa [files] using ⟨hlower, hupper⟩
    rw [Expansion.files_eq_filter hpattern hfound, hall]
  obtain ⟨found, hfound, hascending, -, -, hrun⟩ :=
    files_ofGlob_ascending d defaultGlob ht hpattern hparts hshape
  obtain rfl := Except.ok.inj (hfiles.symm.trans hfound)
  exact ⟨ht, hpattern, hparts, hshape, hfiles, hascending, (hrun .check).2.2⟩

end JsonLayout.Run
