import JsonLayout.Proofs.Run.Sequence
import Mathlib

/-!
# Runs that fail

A run ends at its first failure, at a glob or at a file. Until then it has done what a run over the
files before does, and that is all that it has done, but for a file whose writing fails.
-/

namespace JsonLayout.Run

variable {d : Disk} {path : Path} {paths : List Path} {mode : Mode} {p : Progress} {e : Failure}
  {globs : List String}

/-- Where handling a file fails nothing is reported, and only a file that cannot be written is
changed. -/
theorem reconcile_of_error (h : (reconcile d path mode).result = .error e) :
    (reconcile d path mode).events = [] ∧ d.ChangedAt [path] (reconcile d path mode).disk ∧
      ((∀ cause, e ≠ .unwritable path cause) → (reconcile d path mode).disk = d) := by
  have hpath := reconciles d path mode
  generalize reconcile d path mode = r at h hpath
  cases hpath with
  | refused => exact ⟨rfl, .refl d _, fun _ => rfl⟩
  | unwritten hnumber =>
    obtain rfl := Except.error.inj h
    exact ⟨rfl, .setFile (Disk.number?_of_readable? hnumber) _, fun he => absurd rfl (he _)⟩
  | unchanged | differs | written => cases h

namespace Progress

theorem visit_eq_of_error (hp : p.failure = none)
    (h : (reconcile p.disk path mode).result = .error e) :
    p.visit mode path =
      { p with disk := (reconcile p.disk path mode).disk, failure := some e } := by
  simp [visit, hp, h, (reconcile_of_error h).1]

end Progress

/-- The first file that cannot be handled is the last one that is tried. -/
theorem exists_stop_of_visitAll {before files : List Path}
    (hbefore : (visitAll d before mode).failure = none)
    (h : (visitAll d (before ++ files) mode).failure = some e) :
    ∃ head path rest, files = head ++ path :: rest ∧
      let handled := visitAll d (before ++ head) mode
      handled.failure = none ∧ (reconcile handled.disk path mode).result = .error e ∧
        visitAll d (before ++ files) mode =
          { handled with disk := (reconcile handled.disk path mode).disk, failure := some e } := by
  induction files using List.reverseRecOn with
  | nil =>
    rw [List.append_nil, hbefore] at h
    cases h
  | append_singleton files path ih =>
    rw [← List.append_assoc, visitAll_concat] at h ⊢
    cases hfiles : (visitAll d (before ++ files) mode).failure with
    | some cause =>
      rw [Progress.visit_of_failure hfiles] at h ⊢
      obtain ⟨head, stop, rest, rfl, hstop⟩ := ih h
      exact ⟨head, stop, rest ++ [path], by simp, hstop⟩
    | none =>
      cases hresult : (reconcile (visitAll d (before ++ files) mode).disk path mode).result with
      | error cause =>
        have hvisit := Progress.visit_eq_of_error hfiles hresult
        obtain rfl : cause = e := by simpa [hvisit] using h
        exact ⟨files, path, [], rfl, hfiles, hresult, hvisit⟩
      | ok outcome => simp [Progress.visit, hfiles, hresult] at h

/-- A run ends at the first glob that cannot be expanded, or at the first file that cannot be
handled. -/
theorem exists_stop_of_run (h : (run d globs mode).failure = some e) :
    ∃ earlier glob later before head, globs = earlier ++ glob :: later ∧
      filesOf d earlier = .ok before ∧
      let handled := visitAll d (before ++ head) mode
      handled.failure = none ∧
      (run d globs mode).plain =
        { handled with disk := (run d globs mode).disk, failure := some e } ∧
      (head = [] ∧ (Expansion.ofGlob (visitAll d before mode).disk glob).files = .error e ∧
          (run d globs mode).disk = handled.disk ∨
        ∃ path rest,
          (Expansion.ofGlob (visitAll d before mode).disk glob).files =
            .ok (head ++ path :: rest) ∧
          (reconcile handled.disk path mode).result = .error e ∧
          (run d globs mode).disk = (reconcile handled.disk path mode).disk) := by
  induction globs using List.reverseRecOn with
  | nil => cases h
  | append_singleton globs glob ih =>
    -- The globs before the last one have failed already, or all of their files are handled.
    cases hbefore : (run d globs mode).failure with
    | some cause =>
      rw [run_append, Progress.andThen_of_failure hbefore] at h ⊢
      obtain ⟨earlier, stop, later, before, head, rfl, hstop⟩ := ih h
      exact ⟨earlier, stop, later ++ [glob], before, head, by simp, hstop⟩
    | none =>
      obtain ⟨before, hfound⟩ := exists_filesOf_of_run hbefore
      have hplain : (run d globs mode).plain = visitAll d before mode := plain_run hfound
      have hhandled : (visitAll d before mode).failure = none := hplain ▸ hbefore
      have hglob : (run d (globs ++ [glob]) mode).plain =
          (visitAll d before mode).andThen fun d => (run d [glob] mode).plain := by
        rw [run_append, Progress.plain_andThen, hplain]
      refine ⟨globs, glob, [], before, ?_⟩
      cases hfiles : (Expansion.ofGlob (visitAll d before mode).disk glob).files with
      | error cause =>
        rw [Progress.andThen_of_ok hhandled, plain_run_singleton_of_error hfiles] at hglob
        obtain rfl : cause = e := Option.some.inj ((congrArg Progress.failure hglob).symm.trans h)
        have hdisk : (run d (globs ++ [glob]) mode).disk = (visitAll d before mode).disk := by
          rw [← Progress.disk_plain, hglob]
        refine ⟨[], rfl, hfound, ?_⟩
        rw [List.append_nil]
        refine ⟨hhandled, ?_, .inl ⟨rfl, rfl, hdisk⟩⟩
        rw [hglob]
        simpa [Summary.add] using hdisk.symm
      | ok files =>
        replace hglob : (run d (globs ++ [glob]) mode).plain =
            visitAll d (before ++ files) mode := by
          rw [hglob, visitAll_append]
          exact Progress.andThen_congr fun _ => plain_run_singleton hfiles
        have hfailure : (visitAll d (before ++ files) mode).failure = some e := hglob ▸ h
        obtain ⟨head, path, rest, rfl, hstop, hresult, hvisits⟩ :=
          exists_stop_of_visitAll hhandled hfailure
        rw [hvisits] at hglob
        have hdisk : (run d (globs ++ [glob]) mode).disk =
            (reconcile (visitAll d (before ++ head) mode).disk path mode).disk := by
          rw [← Progress.disk_plain, hglob]
        refine ⟨head, rfl, hfound, hstop, ?_, .inr ⟨path, rest, rfl, hresult, hdisk⟩⟩
        rw [hglob, hdisk]

/-- A run that fails has come to a glob that cannot be expanded, or to a file of an expanded glob
that cannot be handled, and fails the way that does. Until there it has made of the files, reported
and counted what a run over the files before does, which does not fail, and it has changed no other
file but one whose writing fails. A run over two lists of globs is a run over the first and then,
unless that fails, one over the second on the disk that it leaves. -/
theorem run_stops_at_failure (d : Disk) (mode : Mode) :
    (∀ globs e, (run d globs mode).failure = some e →
      let after := run d globs mode
      ∃ (earlier : List String) (glob : String) (later : List String) (before head : List Path),
        globs = earlier ++ glob :: later ∧ filesOf d earlier = .ok before ∧
        let reached := visitAll d before mode
        let handled := visitAll d (before ++ head) mode
        -- the files before are handled, and nothing else
        handled.failure = none ∧ after.summary = handled.summary ∧
        after.reports = handled.reports ∧
        after.events.filter Event.isOutcome = handled.events ∧
        d.ChangedAt (before ++ head) handled.disk ∧
        -- then the glob fails, or the file that comes next among its files
        (head = [] ∧ (Expansion.ofGlob reached.disk glob).files = .error e ∧
            after.disk = handled.disk ∨
          ∃ path rest, (Expansion.ofGlob reached.disk glob).files = .ok (head ++ path :: rest) ∧
            (reconcile handled.disk path mode).result = .error e ∧
            handled.disk.ChangedAt [path] after.disk ∧
            ((∀ cause, e ≠ .unwritable path cause) → after.disk = handled.disk))) ∧
    ∀ globs more,
      let first := run d globs mode
      let second := run first.disk more mode
      run d (globs ++ more) mode =
        if first.failure.isSome then first else
          { disk := second.disk
            summary := ⟨first.summary.checked + second.summary.checked,
              first.summary.written + second.summary.written,
              first.summary.differing ++ second.summary.differing⟩
            reports := first.reports ++ second.reports
            events := first.events ++ second.events
            failure := second.failure } := by
  refine ⟨fun globs e h => ?_, fun globs more => run_append d globs more mode⟩
  intro after
  obtain ⟨earlier, glob, later, before, head, hglobs, hfound, hhandled, hplain, hstop⟩ :=
    exists_stop_of_run h
  simp only [Progress.plain, Progress.mk.injEq] at hplain
  obtain ⟨-, hsummary, hreports, hevents, -⟩ := hplain
  refine ⟨earlier, glob, later, before, head, hglobs, hfound, hhandled, hsummary, hreports,
    hevents, changedAt_visitAll d _ mode, ?_⟩
  rcases hstop with hglob | ⟨path, rest, hfiles, hresult, hdisk⟩
  · exact .inl hglob
  · obtain ⟨-, hchanged, hsame⟩ := reconcile_of_error hresult
    rw [← hdisk] at hchanged hsame
    exact .inr ⟨path, rest, hfiles, hresult, hchanged, hsame⟩

/-- Three files, the second of which is not JSON. -/
def brokenDisk : Disk where
  entries :=
    [([], .directory 0o755), (["a"], .file 0), (["b"], .file 1), (["c"], .file 2)]
  here := []
  files
    | 1 => ⟨0o644, "[".toByteArray⟩
    | _ => ⟨0o644, "[ ]".toByteArray⟩

theorem run_stops_at_failure_broken :
    let after := run brokenDisk ["a", "?"] .write
    after.failure = some (.badJson ⟨"b", []⟩ (.unexpectedEnd [.value, .char ']'] (.array 0))) ∧
      after.summary = ⟨2, 1, []⟩ ∧
      (∃ found, (visitAll brokenDisk found .write).failure = none ∧
        (visitAll brokenDisk found .write).summary = ⟨2, 1, []⟩ ∧
        (visitAll brokenDisk found .write).disk = after.disk) ∧
      run brokenDisk (["a", "?"] ++ ["c"]) .write = after := by
  have hfailure : (run brokenDisk ["a", "?"] .write).failure =
      some (.badJson ⟨"b", []⟩ (.unexpectedEnd [.value, .char ']'] (.array 0))) := by cbv
  have hsummary : (run brokenDisk ["a", "?"] .write).summary = ⟨2, 1, []⟩ := by cbv
  obtain ⟨hstop, happend⟩ := run_stops_at_failure brokenDisk .write
  obtain ⟨_, _, _, before, head, -, -, hhandled, hcount, -, -, -, hpoint⟩ := hstop _ _ hfailure
  refine ⟨hfailure, hsummary, ⟨before ++ head, hhandled, hcount ▸ hsummary, ?_⟩, ?_⟩
  · rcases hpoint with ⟨-, -, hdisk⟩ | ⟨_, _, -, -, -, hdisk⟩
    · exact hdisk.symm
    · exact (hdisk (by simp)).symm
  · rw [happend, hfailure]
    rfl

/-- A directory that cannot be listed ends a run, and so does a file that cannot be read. -/
example :
    let denied : DiskError := .refused 13 "Permission denied"
    let locked : Disk := { brokenDisk with listRefusal := fun _ => some denied }
    let secret : Disk := { brokenDisk with refusals := fun _ => { read := some denied } }
    (run locked ["?"] .check).failure = some (.unreadable ⟨".", []⟩ denied) ∧
      (run secret ["?"] .check).failure = some (.unreadable ⟨"a", []⟩ denied) := by
  constructor <;> cbv

end JsonLayout.Run
