import JsonLayout.Command.Basic
import JsonLayout.Proofs.Command.Arguments
import JsonLayout.Proofs.Run.Success

/-!
# What a run shows and how it ends

The exit status, the output and the disk after a command line that asks for a run, told from its
arguments and from the disk before. How much detail is asked for only matters for the log.
-/

namespace JsonLayout.Command

open Run

variable {d : Disk} {o o' : Options} {arguments : List String}

def Options.mode (o : Options) : Mode := if o.write then .write else .check

/-- What a run comes to does not depend on the detail asked for, the log apart. -/
theorem runOptions_shows (d : Disk) (o : Options) :
    let p := run d o.effectiveGlobs o.mode
    let result := runOptions d o
    result.disk = p.disk ∧ result.output = String.join (p.reports.map reportText) ∧
      result.status = if p.succeeds then 0 else 1 := by
  have hmode : (if o.write then Mode.write else .check) = o.mode := rfl
  simp only [runOptions, hmode]
  generalize run d o.effectiveGlobs o.mode = p
  cases hfailure : p.failure with
  | some e => simp [Progress.succeeds, hfailure]
  | none => cases hfailed : p.summary.failed <;> simp [Progress.succeeds, hfailure, hfailed]

theorem effectiveGlobs_of_arguments (h : Request.ofArguments arguments = .ok (.run o)) :
    o.effectiveGlobs = if globsOf arguments = [] then ["**/*.json"] else globsOf arguments := by
  rw [options_of_arguments h, Options.effectiveGlobs]
  simp [List.isEmpty_iff, defaultGlob]

theorem mode_of_arguments (h : Request.ofArguments arguments = .ok (.run o)) :
    o.mode = if "--write" ∈ beforeDashes arguments ∨ "-w" ∈ beforeDashes arguments then .write
      else .check := by
  rw [Options.mode]
  exact if_congr (write_of_arguments h) rfl rfl

theorem invoke_eq (h : Request.ofArguments arguments = .ok (.run o)) :
    invoke d arguments = runOptions d o := by
  simp only [invoke, h]

/-- A command line that asks for a run ends with status 0 exactly if all globs can be walked, all
files that they match can be read and have a canonical form, and each of these that is not in it is
rewritten without error or, without `--write`, there is none; otherwise with 1. The output holds a
note on each file that is not canonical of those that a check meets before it fails, and nothing if
files are written. Any other command line with the same globs that agrees about `--write`, however
much detail it asks for, ends with the same status, output and disk. -/
theorem invoke_run (d : Disk) (h : Request.ofArguments arguments = .ok (.run o)) :
    let result := invoke d arguments
    let t := d.toDirectoryTree
    let globs := if globsOf arguments = [] then ["**/*.json"] else globsOf arguments
    let write := "--write" ∈ beforeDashes arguments ∨ "-w" ∈ beforeDashes arguments
    (result.status = 0 ↔
      Walkable t globs ∧ (∀ path, Matched t globs path → d.FormatsAt path) ∧
        (write ∧ (∀ path, Matched t globs path → ¬ d.CanonicalAt path → d.OverwritesAt path) ∨
          ¬ write ∧ ∀ path, Matched t globs path → d.CanonicalAt path)) ∧
    (result.status ≠ 0 → result.status = 1) ∧
    (write → result.output = "") ∧
    (¬ write → ∃ reports : List (Path × String),
      reports.map Prod.fst = (metBeforeError d globs).filter (fun path => ¬ d.CanonicalAt path) ∧
      (∀ report ∈ reports, d.diff? report.1 = some report.2) ∧
      result.output = String.join (reports.map fun (path, diff) =>
        "file " ++ path.text ++ " differs:\n" ++ diff ++ "\n")) ∧
    ∀ arguments' o', Request.ofArguments arguments' = .ok (.run o') →
      globsOf arguments' = globsOf arguments →
      ("--write" ∈ beforeDashes arguments' ∨ "-w" ∈ beforeDashes arguments' ↔ write) →
      let result' := invoke d arguments'
      result'.status = result.status ∧ result'.output = result.output ∧
        result'.disk = result.disk := by
  intro result t globs write
  have hglobs : o.effectiveGlobs = globs := effectiveGlobs_of_arguments h
  have hmode : o.mode = if write then .write else .check := mode_of_arguments h
  have hresult : result = runOptions d o := invoke_eq h
  obtain ⟨hdisk, houtput, hstatus⟩ := runOptions_shows d o
  rw [hglobs, hmode, ← hresult] at hdisk houtput hstatus
  refine ⟨?_, ?_, fun hwrite => ?_, fun hcheck => ?_, ?_⟩
  · have hsucceeds : result.status = 0 ↔
        (run d globs (if write then .write else .check)).succeeds := by
      rw [hstatus]
      simp
    rw [hsucceeds]
    by_cases hwrite : write
    · rw [if_pos hwrite, succeeds_run_write_iff]
      simp [hwrite, t]
    · rw [if_neg hwrite, succeeds_run_check_iff]
      simp [hwrite, t]
  · rw [hstatus]
    split_ifs <;> simp
  · rw [houtput, if_pos hwrite, reports_run_write]
    rfl
  · rw [if_neg hcheck] at houtput
    obtain ⟨hpaths, hdiffs⟩ := reports_run_check d globs
    exact ⟨_, hpaths, hdiffs, houtput⟩
  · intro arguments' o' h' hglobs' hwrite'
    have hsameGlobs : o'.effectiveGlobs = globs := by
      rw [effectiveGlobs_of_arguments h', hglobs']
    have hsameMode : o'.mode = if write then .write else .check :=
      (mode_of_arguments h').trans (if_congr hwrite' rfl rfl)
    obtain ⟨hdisk', houtput', hstatus'⟩ := runOptions_shows d o'
    rw [hsameGlobs, hsameMode, ← invoke_eq h'] at hdisk' houtput' hstatus'
    exact ⟨hstatus'.trans hstatus.symm, houtput'.trans houtput.symm, hdisk'.trans hdisk.symm⟩

/-- The file that is met twice before one that is not JSON is reported twice. -/
theorem invoke_run_broken :
    let result := invoke brokenDisk ["--verbose", "a", "?"]
    result.status = 1 ∧
      (∃ reports : List (Path × String), reports.map Prod.fst = [⟨"a", []⟩, ⟨"a", []⟩] ∧
        result.output = String.join (reports.map fun (path, diff) =>
          "file " ++ path.text ++ " differs:\n" ++ diff ++ "\n")) ∧
      (invoke brokenDisk ["a", "?"]).output = result.output := by
  have hparse : Request.ofArguments ["--verbose", "a", "?"] =
      .ok (.run ⟨["a", "?"], [.verbose]⟩) := by decide
  have hquiet : Request.ofArguments ["a", "?"] = .ok (.run ⟨["a", "?"], []⟩) := by decide
  have hfiles : filesOf brokenDisk.toDirectoryTree ["a", "?"] =
      .ok [⟨"a", []⟩, ⟨"a", []⟩, ⟨"b", []⟩, ⟨"c", []⟩] := by cbv
  have hspaced : brokenDisk.readable? ⟨"a", []⟩ = some 0 := by cbv
  have hbroken : brokenDisk.readable? ⟨"b", []⟩ = some 1 := by cbv
  have hformat : Json.formatBytes (brokenDisk.files 0).content = .ok "[]\n" := by cbv
  have hrefuse : Json.formatBytes (brokenDisk.files 1).content =
      .error (.unexpectedEnd [.value, .char ']'] (.array 0)) := by cbv
  have hnot : ¬ brokenDisk.FormatsAt ⟨"b", []⟩ := by
    rw [Disk.formatsAt_iff hbroken, hrefuse]
    simp
  have hdiffers : ¬ brokenDisk.CanonicalAt ⟨"a", []⟩ := by
    rw [Disk.canonicalAt_iff hspaced, Json.isCanonical_iff hformat]
    simp [brokenDisk, String.toByteArray_inj]
  have hmet : metBeforeError brokenDisk ["a", "?"] = [⟨"a", []⟩, ⟨"a", []⟩] :=
    metBeforeError_eq [some ⟨"b", []⟩, some ⟨"c", []⟩] (encounters_of_filesOf hfiles)
      (by simpa using ⟨0, _, hspaced, hformat⟩) (by simp [hnot])
  obtain ⟨hstatus, hone, -, houtput, hsame⟩ := invoke_run brokenDisk hparse
  refine ⟨hone fun hzero => ?_, ?_, (hsame _ _ hquiet rfl (by decide)).2.1⟩
  · obtain ⟨-, hformats, -⟩ := hstatus.1 hzero
    exact hnot (hformats _ ((mem_filesOf_iff hfiles).1 (by simp)))
  · obtain ⟨reports, hpaths, -, hjoin⟩ := houtput (by decide)
    refine ⟨reports, hpaths.trans ?_, hjoin⟩
    have hglobs : globsOf ["--verbose", "a", "?"] = ["a", "?"] := by decide
    simp [hglobs, hmet, hdiffers]

end JsonLayout.Command
