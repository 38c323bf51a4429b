import JsonLayout.Proofs.Disk.Formatted
import JsonLayout.Proofs.Run.Steps
import Mathlib

/-!
# Runs that write

A run in write mode that does not fail replaces what the files that it finds hold by its canonical
form, each file once, and leaves everything else alone. After it, a run in either mode finds the
same files and nothing to do.
-/

namespace JsonLayout.Run

variable {d : Disk} {path : Path} {number : Nat} {mode : Mode} {p : Progress} {globs : List String}
  {paths : List Path}

/-- What a run that writes has come to once it has been at the files with these numbers. -/
structure Wrote (d : Disk) (numbers : List Nat) (p : Progress) : Prop where
  disk : p.disk = d.formatted numbers
  read : ∀ n ∈ numbers, (d.refusals n).read = none
  formats : ∀ n ∈ numbers, ∃ out, Json.formatBytes (d.files n).content = .ok out
  summary : p.summary = ⟨numbers.length, (d.unformatted numbers).card, []⟩
  reports : p.reports = []

namespace Wrote

variable {numbers : List Nat}

theorem start (d : Disk) : Wrote d [] { disk := d } :=
  ⟨d.formatted_nil.symm, by simp, by simp, rfl, rfl⟩

theorem isCanonical_of_mem (h : Wrote d numbers p) (hnumber : number ∈ numbers) :
    Json.IsCanonical (p.disk.files number).content := by
  obtain ⟨out, hformat⟩ := h.formats number hnumber
  rw [h.disk, Disk.files_formatted_of_mem hnumber, File.formatted_eq hformat]
  exact Json.isCanonical_of_formatBytes hformat

theorem visit (h : Wrote d numbers p) (hnumber : d.number? path = some number)
    (hfailure : (p.visit .write path).failure = none) :
    Wrote d (numbers ++ [number]) (p.visit .write path) := by
  have hp : p.failure = none := Progress.failure_of_visit hfailure
  have hnumber' : p.disk.number? path = some number := by
    rw [h.disk]
    exact hnumber
  have hrefusals : p.disk.refusals = d.refusals := by
    rw [h.disk]
    rfl
  rcases reconcile_write_cases hnumber' with
    ⟨e, he⟩ | ⟨hallowed, hcanonical | ⟨out, hformat, hnot, hr⟩⟩
  · rw [Progress.visit_of_error hp he] at hfailure
    cases hfailure
  all_goals
    have hreads : ∀ n ∈ numbers ++ [number], (d.refusals n).read = none :=
      List.forall_mem_append.2 ⟨h.read, List.forall_mem_singleton.2 (hrefusals ▸ hallowed)⟩
  · -- Nothing happens to the file, because it is canonical from the start or has been met before.
    have hseen : number ∈ numbers ∨ Json.IsCanonical (d.files number).content := by
      by_cases hmem : number ∈ numbers
      · exact .inl hmem
      · rw [h.disk, Disk.files_formatted_of_not_mem hmem] at hcanonical
        exact .inr hcanonical
    have hformat : ∃ out, Json.formatBytes (d.files number).content = .ok out := by
      rcases hseen with hmem | ⟨out, hformat, -⟩
      · exact h.formats number hmem
      · exact ⟨out, hformat⟩
    rw [Progress.visit_of_isCanonical hp (Disk.readable?_eq_some_iff.2 ⟨hnumber', hallowed⟩)
      hcanonical]
    refine ⟨Disk.formatted_concat hseen ▸ h.disk, hreads,
      List.forall_mem_append.2 ⟨h.formats, List.forall_mem_singleton.2 hformat⟩, ?_, h.reports⟩
    simp [h.summary, Disk.unformatted_concat hseen]
  · have hmem : number ∉ numbers := fun hmem => hnot (h.isCanonical_of_mem hmem)
    rw [h.disk, Disk.files_formatted_of_not_mem hmem] at hformat hnot
    rw [h.disk, Disk.files_formatted_of_not_mem hmem, Disk.setFile_formatted hformat,
      ← h.disk] at hr
    rw [Progress.visit_of_ok hp hr rfl (by simp)]
    refine ⟨rfl, hreads,
      List.forall_mem_append.2 ⟨h.formats, List.forall_mem_singleton.2 ⟨out, hformat⟩⟩, ?_,
      h.reports⟩
    simp [h.summary, Summary.record, Disk.card_unformatted_concat hmem hnot]

theorem foldl_visit {more : List Nat} (h : Wrote d numbers p)
    (hpaths : paths.map d.number? = more.map some)
    (hfailure : (paths.foldl (Progress.visit .write) p).failure = none) :
    Wrote d (numbers ++ more) (paths.foldl (Progress.visit .write) p) := by
  induction paths generalizing p numbers more with
  | nil =>
    obtain rfl : more = [] := by simpa using hpaths
    simpa using h
  | cons path paths ih =>
    cases more with
    | nil => cases hpaths
    | cons number more =>
      obtain ⟨hnumber, hpaths⟩ := List.cons.inj hpaths
      have hvisit := h.visit hnumber
        (Progress.failure_of_foldl (fun _ _ => Progress.failure_of_visit) hfailure)
      simpa using ih hvisit hpaths hfailure

theorem foldl_expand (h : Wrote d numbers p)
    (hfailure : (globs.foldl (Progress.expand .write) p).failure = none) :
    ∃ found more, filesOf d globs = .ok found ∧ found.map d.number? = more.map some ∧
      Wrote d (numbers ++ more) (globs.foldl (Progress.expand .write) p) := by
  induction globs generalizing p numbers with
  | nil => exact ⟨[], [], rfl, rfl, by simpa using h⟩
  | cons glob globs ih =>
    have hexpand : (p.expand .write glob).failure = none :=
      Progress.failure_of_foldl (fun _ _ h => (Progress.exists_files_of_expand h).1) hfailure
    obtain ⟨hp, files, hfiles⟩ := Progress.exists_files_of_expand hexpand
    have hfiles' : (Expansion.ofGlob d glob).files = .ok files := by
      rw [h.disk] at hfiles
      exact hfiles
    obtain ⟨ns, hns⟩ := Expansion.exists_numbers hfiles'
    have hwrote : Wrote d (numbers ++ ns) (p.expand .write glob) := by
      rw [Progress.expand_of_ok hp hfiles] at hexpand ⊢
      exact foldl_visit ⟨h.disk, h.read, h.formats, h.summary, h.reports⟩ hns hexpand
    obtain ⟨found, more, hfound, hmore, hafter⟩ := ih hwrote hfailure
    refine ⟨files ++ found, ns ++ more,
      filesOf_cons_eq_ok_iff.2 ⟨files, found, hfiles', hfound, rfl⟩, ?_, ?_⟩
    · rw [List.map_append, List.map_append, hns, hmore]
    · rw [← List.append_assoc]
      exact hafter

end Wrote

/-- What a run has come to once it has been at so many files and found nothing to do. -/
structure Idle (d : Disk) (count : Nat) (p : Progress) : Prop where
  disk : p.disk = d
  summary : p.summary = ⟨count, 0, []⟩
  reports : p.reports = []
  failure : p.failure = none

namespace Idle

variable {count : Nat}

theorem visit (h : Idle d count p) (hpath : d.CanonicalAt path) :
    Idle d (count + 1) (p.visit mode path) := by
  rw [← h.disk] at hpath
  obtain ⟨number, hnumber, hcanonical⟩ := hpath
  rw [Progress.visit_of_isCanonical h.failure hnumber hcanonical]
  exact ⟨h.disk, by simp [h.summary], h.reports, h.failure⟩

theorem foldl_visit (h : Idle d count p) (hpaths : ∀ path ∈ paths, d.CanonicalAt path) :
    Idle d (count + paths.length) (paths.foldl (Progress.visit mode) p) := by
  induction paths generalizing p count with
  | nil => exact h
  | cons path paths ih =>
    obtain ⟨hpath, hpaths⟩ := List.forall_mem_cons.1 hpaths
    rw [List.length_cons, Nat.add_comm paths.length, ← Nat.add_assoc]
    exact ih (h.visit hpath) hpaths

theorem foldl_expand (h : Idle d count p) (hpaths : filesOf d globs = .ok paths)
    (hcanonical : ∀ path ∈ paths, d.CanonicalAt path) :
    Idle d (count + paths.length) (globs.foldl (Progress.expand mode) p) := by
  induction globs generalizing p count paths with
  | nil =>
    obtain rfl : [] = paths := Except.ok.inj hpaths
    exact h
  | cons glob globs ih =>
    obtain ⟨files, more, hfiles, hmore, rfl⟩ := filesOf_cons_eq_ok_iff.1 hpaths
    obtain ⟨hcanonicalFiles, hcanonicalMore⟩ := List.forall_mem_append.1 hcanonical
    rw [← h.disk] at hfiles
    rw [List.foldl_cons, Progress.expand_of_ok h.failure hfiles, List.length_append,
      ← Nat.add_assoc]
    refine ih (foldl_visit ?_ hcanonicalFiles) hmore hcanonicalMore
    exact ⟨h.disk, h.summary, h.reports, h.failure⟩

end Idle

/-- A run in write mode that does not fail finds the files that its globs find on the disk before,
whatever it writes on the way. Each then holds its canonical form with its permissions, however many
paths lead to it and however often it is found; no other file, directory or link is changed. Nothing
is reported, every file found is counted, and among those written each file that was not canonical
is counted once. A further run in either mode counts the same files and changes nothing. -/
theorem run_write_formats_files (h : (run d globs .write).failure = none) :
    let after := run d globs .write
    ∃ (found : List Path) (numbers : List Nat),
      filesOf d globs = .ok found ∧ found.map d.number? = numbers.map some ∧
      (∀ n ∈ numbers, ∃ out, Json.formatBytes (d.files n).content = .ok out ∧
        after.disk.files n = ⟨(d.files n).permissions, out.toByteArray⟩) ∧
      (∀ n ∉ numbers, after.disk.files n = d.files n) ∧
      after.disk = { d with files := after.disk.files } ∧
      after.reports = [] ∧
      after.summary =
        ⟨found.length,
          (numbers.toFinset.filter fun n => ¬ Json.IsCanonical (d.files n).content).card, []⟩ ∧
      ∀ mode,
        let again := run after.disk globs mode
        again.failure = none ∧ again.summary = ⟨found.length, 0, []⟩ ∧ again.reports = [] ∧
          again.disk = after.disk := by
  intro after
  obtain ⟨found, numbers, hfound, hnumbers, hwrote⟩ := (Wrote.start d).foldl_expand h
  rw [List.nil_append] at hwrote
  have hdisk : after.disk = d.formatted numbers := hwrote.disk
  have hlength : numbers.length = found.length := by
    simpa using (congrArg List.length hnumbers).symm
  have hcanonical : ∀ path ∈ found, after.disk.CanonicalAt path := by
    intro path hpath
    have hsome : d.number? path ∈ numbers.map some := hnumbers ▸ List.mem_map_of_mem hpath
    obtain ⟨number, hmem, hnumber⟩ := List.mem_map.1 hsome
    refine ⟨number, ?_, hwrote.isCanonical_of_mem hmem⟩
    rw [hdisk]
    exact Disk.readable?_eq_some_iff.2 ⟨hnumber.symm, hwrote.read number hmem⟩
  refine ⟨found, numbers, hfound, hnumbers, ?_, ?_, ?_, hwrote.reports, ?_, ?_⟩
  · intro n hn
    obtain ⟨out, hformat⟩ := hwrote.formats n hn
    rw [hdisk, Disk.files_formatted_of_mem hn, File.formatted_eq hformat]
    exact ⟨out, hformat, rfl⟩
  · intro n hn
    rw [hdisk, Disk.files_formatted_of_not_mem hn]
  · rw [hdisk]
    rfl
  · rw [← hlength]
    exact hwrote.summary
  · intro mode
    have hfound' : filesOf after.disk globs = .ok found := by
      rw [hdisk]
      exact hfound
    have hbefore : Idle after.disk 0 { disk := after.disk } := ⟨rfl, rfl, rfl, rfl⟩
    have hidle : Idle after.disk (0 + found.length) (run after.disk globs mode) :=
      hbefore.foldl_expand hfound' hcanonical
    rw [Nat.zero_add] at hidle
    exact ⟨hidle.failure, hidle.summary, hidle.reports, hidle.disk⟩

/-- One file with two entries and a symbolic link to it, beside a directory with another file. -/
def linkedDisk : Disk where
  entries :=
    [([], .directory 0o755), (["a"], .file 0), (["b"], .file 0), (["c"], .link ⟨"a", []⟩),
      (["d"], .directory 0o755), (["e", "d"], .file 1)]
  here := []
  files
    | 0 => ⟨0o751, "[]".toByteArray⟩
    | _ => ⟨0o644, "[ ]".toByteArray⟩

theorem run_write_formats_files_linked :
    let after := run linkedDisk ["?", "c"] .write
    after.failure = none ∧ after.summary = ⟨4, 1, []⟩ ∧
      ∀ mode,
        let again := run after.disk ["?", "c"] mode
        again.failure = none ∧ again.summary = ⟨4, 0, []⟩ ∧ again.disk = after.disk := by
  have hfailure : (run linkedDisk ["?", "c"] .write).failure = none := by cbv
  have hsummary : (run linkedDisk ["?", "c"] .write).summary = ⟨4, 1, []⟩ := by cbv
  obtain ⟨found, numbers, -, -, -, -, -, -, hcount, hagain⟩ := run_write_formats_files hfailure
  have hfound : found.length = 4 := congrArg Summary.checked (hcount.symm.trans hsummary)
  refine ⟨hfailure, hsummary, fun mode => ?_⟩
  obtain ⟨hagainFailure, hagainSummary, -, hdisk⟩ := hagain mode
  rw [hfound] at hagainSummary
  exact ⟨hagainFailure, hagainSummary, hdisk⟩

end JsonLayout.Run
