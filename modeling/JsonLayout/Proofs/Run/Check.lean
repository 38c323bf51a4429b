import JsonLayout.Proofs.Diff.Unified
import JsonLayout.Proofs.Run.Sequence
import JsonLayout.Proofs.Run.Write

/-!
# Runs that check

A run in check mode leaves the disk alone. If it does not fail, it reports each file that it finds
and that is not canonical, as often as it finds it, with the diff to its canonical form.
-/

namespace JsonLayout.Run

variable {d : Disk} {path : Path} {found : List Path} {p : Progress}

theorem disk_reconcile_check (d : Disk) (path : Path) : (reconcile d path .check).disk = d := by
  have hpath := reconciles d path .check
  generalize reconcile d path .check = r at hpath
  cases hpath <;> rfl

namespace Progress

theorem disk_foldl {α : Type} {step : Progress → α → Progress}
    (hstep : ∀ p x, (step p x).disk = p.disk) (xs : List α) (p : Progress) :
    (xs.foldl step p).disk = p.disk := by
  induction xs generalizing p with
  | nil => rfl
  | cons x xs ih => exact (ih _).trans (hstep p x)

theorem disk_visit_check (p : Progress) (path : Path) : (p.visit .check path).disk = p.disk := by
  simp only [visit]
  split
  · rfl
  · split <;> exact disk_reconcile_check p.disk path

theorem disk_expand_check (p : Progress) (glob : String) :
    (p.expand .check glob).disk = p.disk := by
  simp only [expand]
  split
  · rfl
  · split
    · rfl
    · exact disk_foldl disk_visit_check _ _

/-- In check mode only a file that cannot be read or has no canonical form ends a run. -/
theorem failure_visit_check (hp : p.failure = none) (hpath : p.disk.FormatsAt path) :
    (p.visit .check path).failure = none := by
  obtain ⟨number, out, hnumber, hformat⟩ := hpath
  have hpath := reconciles p.disk path .check
  generalize hr : reconcile p.disk path .check = r at hpath
  cases hpath with
  | refused _ h => exact absurd hformat (h number out hnumber)
  | unchanged | differs => simp [visit, hp, hr]

end Progress

theorem disk_visitAll_check (d : Disk) (paths : List Path) : (visitAll d paths .check).disk = d :=
  Progress.disk_foldl Progress.disk_visit_check paths _

theorem failure_visitAll_check (h : ∀ path ∈ found, d.FormatsAt path) :
    (visitAll d found .check).failure = none := by
  induction found using List.reverseRecOn with
  | nil => rfl
  | append_singleton found path ih =>
    obtain ⟨hfound, hpath⟩ := List.forall_mem_append.1 h
    have hbefore : (visitAll d found .check).disk.FormatsAt path := by
      rw [disk_visitAll_check]
      exact hpath path (by simp)
    rw [visitAll_concat]
    exact Progress.failure_visit_check (ih hfound) hbefore

/-- What a run that checks has come to once it has been at these files. -/
structure Checked (d : Disk) (found : List Path) (p : Progress) : Prop where
  disk : p.disk = d
  formats : ∀ path ∈ found, d.FormatsAt path
  summary : p.summary = ⟨found.length, 0, found.filter fun path => ¬ d.CanonicalAt path⟩
  paths : p.reports.map Prod.fst = p.summary.differing
  diffs : ∀ path diff, (path, diff) ∈ p.reports → ∃ number text out,
    d.readable? path = some number ∧ (d.files number).content = text.toByteArray ∧
      Json.format text = .ok out ∧ diff = Diff.unified text out ∧ diff ≠ ""

namespace Checked

theorem start (d : Disk) : Checked d [] { disk := d } := ⟨rfl, by simp, rfl, rfl, by simp⟩

theorem visit (h : Checked d found p) (hfailure : (p.visit .check path).failure = none) :
    Checked d (found ++ [path]) (p.visit .check path) := by
  have hp : p.failure = none := Progress.failure_of_visit hfailure
  obtain ⟨rfl, hformats, hsummary, hpaths, hdiffs⟩ := h
  have hpath := reconciles p.disk path .check
  generalize hr : reconcile p.disk path .check = r at hpath
  cases hpath with
  | refused =>
    rw [Progress.visit_of_error hp (congrArg Reconciled.result hr)] at hfailure
    cases hfailure
  | unchanged hnumber hcanonical =>
    have hat : p.disk.CanonicalAt path := ⟨_, hnumber, hcanonical⟩
    rw [Progress.visit_of_isCanonical hp hnumber hcanonical]
    obtain ⟨out, hformat, -⟩ := hcanonical
    refine ⟨rfl, List.forall_mem_append.2 ⟨hformats, by simpa using ⟨_, _, hnumber, hformat⟩⟩,
      ?_, hpaths, hdiffs⟩
    simp [hsummary, hat]
  | @differs number text out hnumber hcontent hformat hcanonical =>
    have hat : ¬ p.disk.CanonicalAt path := (Disk.canonicalAt_iff hnumber).not.2 hcanonical
    have hbytes : Json.formatBytes (p.disk.files number).content = .ok out := by
      rw [hcontent, Json.formatBytes_toByteArray, hformat]
    have hdiff : Diff.unified text out ≠ "" := fun hempty => by
      obtain rfl := Diff.eq_of_unified hempty
      exact hcanonical ⟨text, hbytes, hcontent.symm⟩
    have hvisit : p.visit .check path =
        { p with
          summary := p.summary.record path (.differs (Diff.unified text out))
          reports := p.reports ++ [(path, Diff.unified text out)]
          events := p.events ++ [.differs path] } := by
      simp [Progress.visit, hp, hr]
    rw [hvisit]
    refine ⟨rfl, List.forall_mem_append.2 ⟨hformats, by simpa using ⟨_, _, hnumber, hbytes⟩⟩,
      ?_, ?_, ?_⟩
    · simp [hsummary, Summary.record, hat]
    · simp [hpaths, Summary.record]
    · intro other diff hmem
      rcases List.mem_append.1 hmem with hmem | hmem
      · exact hdiffs other diff hmem
      · obtain ⟨rfl, rfl⟩ := Prod.mk.inj (List.mem_singleton.1 hmem)
        exact ⟨number, text, out, hnumber, hcontent, hformat, rfl, hdiff⟩

theorem visitAll (hfailure : (visitAll d found .check).failure = none) :
    Checked d found (visitAll d found .check) := by
  induction found using List.reverseRecOn with
  | nil => exact start d
  | append_singleton found path ih =>
    rw [visitAll_concat] at hfailure ⊢
    exact (ih (Progress.failure_of_visit hfailure)).visit hfailure

end Checked

/-- A run in check mode changes nothing, whether or not it fails. If it does not fail, every file
found is counted and has a canonical form, and those that are not in it are listed in order, a file
as often as it is found. They are reported in that order, each once and with the diff from its text
to its canonical form, which is never empty; and the run counts as failed if there are any. -/
theorem run_check_reports_differences (d : Disk) (globs : List String) :
    let after := run d globs .check
    after.disk = d ∧
      (after.failure = none →
        ∃ found, filesOf d globs = .ok found ∧
          (∀ path ∈ found, d.FormatsAt path) ∧
          after.summary = ⟨found.length, 0, found.filter fun path => ¬ d.CanonicalAt path⟩ ∧
          after.reports.map Prod.fst = after.summary.differing ∧
          (∀ path diff, (path, diff) ∈ after.reports → ∃ number text out,
            d.number? path = some number ∧ (d.files number).content = text.toByteArray ∧
              Json.format text = .ok out ∧ diff = Diff.unified text out ∧ diff ≠ "") ∧
          (after.summary.failed = true ↔ ∃ path ∈ found, ¬ d.CanonicalAt path)) := by
  intro after
  refine ⟨Progress.disk_foldl Progress.disk_expand_check globs _, fun h => ?_⟩
  obtain ⟨found, hfound⟩ := exists_filesOf_of_run h
  have hplain : after.plain = visitAll d found .check := plain_run hfound
  have hfailure : (visitAll d found .check).failure = none := hplain ▸ h
  obtain ⟨-, hformats, hsummary, hpaths, hdiffs⟩ := hplain ▸ Checked.visitAll hfailure
  replace hsummary : after.summary = _ := hsummary
  refine ⟨found, hfound, hformats, hsummary, hpaths, fun path diff hmem => ?_, ?_⟩
  · obtain ⟨number, text, out, hnumber, hdiff⟩ := hdiffs path diff hmem
    exact ⟨number, text, out, Disk.number?_of_readable? hnumber, hdiff⟩
  · simp [hsummary, Summary.failed]

/-- All three paths lead to the same file, one through a link, and the last is found twice. -/
theorem run_check_reports_differences_linked :
    let after := run linkedDisk ["?", "c"] .check
    after.disk = linkedDisk ∧ after.failure = none ∧
      after.summary = ⟨4, 0, [⟨"a", []⟩, ⟨"b", []⟩, ⟨"c", []⟩, ⟨"c", []⟩]⟩ ∧
      ∀ path diff, (path, diff) ∈ after.reports → diff ≠ "" := by
  have hfiles : filesOf linkedDisk ["?", "c"] =
      .ok [⟨"a", []⟩, ⟨"b", []⟩, ⟨"c", []⟩, ⟨"c", []⟩] := by cbv
  have hnumber : ∀ path ∈ [⟨"a", []⟩, ⟨"b", []⟩, ⟨"c", []⟩, ⟨"c", []⟩],
      linkedDisk.readable? path = some 0 := by
    simp only [List.forall_mem_cons, List.not_mem_nil, false_imp_iff, implies_true, and_true]
    refine ⟨?_, ?_, ?_, ?_⟩ <;> cbv
  have hformat : Json.formatBytes (linkedDisk.files 0).content = .ok "[]\n" := by cbv
  have hnot : ∀ path ∈ [⟨"a", []⟩, ⟨"b", []⟩, ⟨"c", []⟩, ⟨"c", []⟩],
      ¬ linkedDisk.CanonicalAt path := fun path hpath => by
    rw [Disk.canonicalAt_iff (hnumber path hpath), Json.isCanonical_iff hformat]
    simp [linkedDisk, String.toByteArray_inj]
  have hplain : (run linkedDisk ["?", "c"] .check).plain = _ := plain_run hfiles
  have hfailure : (run linkedDisk ["?", "c"] .check).plain.failure = none := by
    rw [hplain]
    exact failure_visitAll_check fun path hpath => ⟨0, _, hnumber path hpath, hformat⟩
  obtain ⟨hdisk, hrun⟩ := run_check_reports_differences linkedDisk ["?", "c"]
  obtain ⟨found, hfound, -, hsummary, -, hdiffs, -⟩ := hrun hfailure
  obtain rfl := Except.ok.inj (hfiles.symm.trans hfound)
  refine ⟨hdisk, hfailure, hsummary.trans ?_, fun path diff hmem => ?_⟩
  · rw [List.filter_eq_self.2 fun path hpath => decide_eq_true (hnot path hpath)]
    rfl
  · obtain ⟨_, _, _, -, -, -, -, hdiff⟩ := hdiffs path diff hmem
    exact hdiff

end JsonLayout.Run
