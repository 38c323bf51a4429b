import JsonLayout.Proofs.Run.Check
import JsonLayout.Proofs.Run.Failing
import JsonLayout.Proofs.Run.Matches

/-!
# Runs that succeed

Whether a run fails can be told from the disk before it: from the walks along its globs, and from
each file that they find by itself, whatever the run writes on the way. A check that fails has
reported the files that it has met before.
-/

namespace JsonLayout

/-- The diff from the text at the path to its canonical form, if there are both. -/
def Disk.diff? (d : Disk) (p : Path) : Option String := do
  let bytes ← (d.read p).toOption
  let text ← String.fromUTF8? bytes
  let out ← (Json.format text).toOption
  return Diff.unified text out

theorem Disk.diff?_eq {d : Disk} {p : Path} {number : Nat} {text out : String}
    (h : d.readable? p = some number) (hcontent : (d.files number).content = text.toByteArray)
    (hformat : Json.format text = .ok out) : d.diff? p = some (Diff.unified text out) := by
  rw [diff?, read_eq h, hcontent]
  simp [Except.toOption, Json.fromUTF8?_toByteArray, hformat]

namespace Run

/-- Every glob makes sense, and the walk along it meets no error. -/
def Walkable (t : DirectoryTree) (globs : List String) : Prop :=
  ∀ glob ∈ globs, ∃ pattern, Glob.Pattern.compile glob = .ok pattern ∧
    ∀ f ∈ pattern.find t, ∃ path, f = .ok path

/-- One of the globs finds the path, and a regular file is there. -/
def Matched (t : DirectoryTree) (globs : List String) (path : Path) : Prop :=
  ∃ glob ∈ globs, ∃ pattern, Glob.Pattern.compile glob = .ok pattern ∧
    .ok path ∈ pattern.find t ∧ t.isFile path = true

/-- What a run has to deal with in turn: the files of each glob, or a glob without any because it
cannot be expanded. -/
def encounters (t : DirectoryTree) (globs : List String) : List (Option Path) :=
  globs.flatMap fun glob =>
    match (Expansion.ofGlob t glob).files with
    | .ok files => files.map some
    | .error _ => [none]

/-- The files that a check meets before the first glob that cannot be expanded, or file that cannot
be read or has no canonical form. -/
def metBeforeError (d : Disk) (globs : List String) : List Path :=
  ((encounters d.toDirectoryTree globs).takeWhile (·.any (d.FormatsAt ·))).reduceOption

variable {d : Disk} {path : Path} {number : Nat} {paths found : List Path} {globs : List String}
  {glob : String} {p : Progress} {t : DirectoryTree}

/-! ### What globs find -/

theorem Expansion.exists_files_iff : (∃ files, (ofGlob t glob).files = .ok files) ↔
    ∃ pattern, Glob.Pattern.compile glob = .ok pattern ∧
      ∀ f ∈ pattern.find t, ∃ path, f = .ok path := by
  constructor
  · rintro ⟨files, hfiles⟩
    obtain ⟨pattern, paths, hpattern, hpaths, -⟩ := files_ofGlob hfiles
    refine ⟨pattern, hpattern, ?_⟩
    rw [hpaths]
    exact List.forall_mem_map.2 fun path _ => ⟨path, rfl⟩
  · rintro ⟨pattern, hpattern, hwalk⟩
    obtain ⟨files, hfiles, -⟩ := exists_files_ofGlob hpattern hwalk
    exact ⟨files, hfiles⟩

theorem Expansion.mem_files_iff {files : List Path} (h : (ofGlob t glob).files = .ok files) :
    path ∈ files ↔ ∃ pattern, Glob.Pattern.compile glob = .ok pattern ∧
      .ok path ∈ pattern.find t ∧ t.isFile path = true := by
  obtain ⟨pattern, paths, hpattern, hpaths, rfl⟩ := files_ofGlob h
  simp [hpattern, hpaths]

theorem exists_filesOf_iff : (∃ found, filesOf t globs = .ok found) ↔ Walkable t globs := by
  induction globs with
  | nil => simp [filesOf, Walkable]
  | cons glob globs ih =>
    rw [Walkable, List.forall_mem_cons, ← Expansion.exists_files_iff]
    constructor
    · rintro ⟨found, hfound⟩
      obtain ⟨files, more, hfiles, hmore, -⟩ := filesOf_cons_eq_ok_iff.1 hfound
      exact ⟨⟨files, hfiles⟩, ih.1 ⟨more, hmore⟩⟩
    · rintro ⟨⟨files, hfiles⟩, hwalk⟩
      obtain ⟨more, hmore⟩ := ih.2 hwalk
      exact ⟨files ++ more, filesOf_cons_eq_ok_iff.2 ⟨files, more, hfiles, hmore, rfl⟩⟩

theorem mem_filesOf_iff (h : filesOf t globs = .ok found) :
    path ∈ found ↔ Matched t globs path := by
  induction globs generalizing found with
  | nil =>
    obtain rfl : [] = found := Except.ok.inj h
    simp [Matched]
  | cons glob globs ih =>
    obtain ⟨files, more, hfiles, hmore, rfl⟩ := filesOf_cons_eq_ok_iff.1 h
    rw [List.mem_append, Expansion.mem_files_iff hfiles, ih hmore]
    simp [Matched]

/-- A run has not failed and counts as passed. -/
def Progress.succeeds (p : Progress) : Prop := p.failure = none ∧ p.summary.failed = false

instance : DecidablePred Progress.succeeds := fun p =>
  inferInstanceAs (Decidable (p.failure = none ∧ p.summary.failed = false))

/-- What makes a run over files succeed makes one over globs succeed, if they can be walked. -/
theorem succeeds_run_iff {mode : Mode} {good : Path → Prop}
    (h : ∀ found, (visitAll d found mode).succeeds ↔ ∀ path ∈ found, good path) :
    (run d globs mode).succeeds ↔
      Walkable d.toDirectoryTree globs ∧ ∀ path, Matched d.toDirectoryTree globs path → good path := by
  have hplain : ∀ found, filesOf d.toDirectoryTree globs = .ok found →
      ((run d globs mode).succeeds ↔ ∀ path ∈ found, good path) := fun found hfound => by
    rw [← h found, ← plain_run hfound]
    rfl
  constructor
  · intro hrun
    obtain ⟨found, hfound⟩ := exists_filesOf_of_run hrun.1
    have hgood := (hplain found hfound).1 hrun
    exact ⟨exists_filesOf_iff.1 ⟨found, hfound⟩,
      fun path hpath => hgood path ((mem_filesOf_iff hfound).2 hpath)⟩
  · rintro ⟨hwalk, hgood⟩
    obtain ⟨found, hfound⟩ := exists_filesOf_iff.2 hwalk
    exact (hplain found hfound).2 fun path hpath => hgood path ((mem_filesOf_iff hfound).1 hpath)

/-! ### Runs that check -/

theorem formatsAt_of_canonicalAt (h : d.CanonicalAt path) : d.FormatsAt path := by
  obtain ⟨number, hnumber, out, hformat, -⟩ := h
  exact ⟨number, out, hnumber, hformat⟩

theorem succeeds_visitAll_check_iff (found : List Path) :
    (visitAll d found .check).succeeds ↔ ∀ path ∈ found, d.CanonicalAt path := by
  constructor
  · rintro ⟨hfailure, hfailed⟩
    rw [(Checked.visitAll hfailure).summary] at hfailed
    simpa [Summary.failed] using hfailed
  · intro hcanonical
    have hfailure := failure_visitAll_check fun path hpath =>
      formatsAt_of_canonicalAt (hcanonical path hpath)
    refine ⟨hfailure, ?_⟩
    rw [(Checked.visitAll hfailure).summary]
    simpa [Summary.failed] using hcanonical

theorem encounters_append (globs more : List String) :
    encounters t (globs ++ more) = encounters t globs ++ encounters t more :=
  List.flatMap_append

theorem encounters_cons_of_ok {files : List Path} (h : (Expansion.ofGlob t glob).files = .ok files) :
    encounters t (glob :: globs) = files.map some ++ encounters t globs := by
  rw [encounters, List.flatMap_cons, h]
  rfl

theorem encounters_cons_of_error {e : Failure} (h : (Expansion.ofGlob t glob).files = .error e) :
    encounters t (glob :: globs) = none :: encounters t globs := by
  rw [encounters, List.flatMap_cons, h]
  rfl

theorem encounters_of_filesOf (h : filesOf t globs = .ok found) :
    encounters t globs = found.map some := by
  induction globs generalizing found with
  | nil =>
    obtain rfl : [] = found := Except.ok.inj h
    rfl
  | cons glob globs ih =>
    obtain ⟨files, more, hfiles, hmore, rfl⟩ := filesOf_cons_eq_ok_iff.1 h
    rw [encounters_cons_of_ok hfiles, ih hmore, List.map_append]

/-- If what comes first has canonical forms and what comes then has none, then it ends there. -/
theorem metBeforeError_eq (rest : List (Option Path))
    (h : encounters d.toDirectoryTree globs = paths.map some ++ rest)
    (hpaths : ∀ path ∈ paths, d.FormatsAt path)
    (hrest : ∀ x ∈ rest.head?, x.any (d.FormatsAt ·) = false) : metBeforeError d globs = paths := by
  have hall : ∀ x ∈ paths.map some, x.any (d.FormatsAt ·) = true := by
    simpa using hpaths
  have hnone : rest.takeWhile (·.any (d.FormatsAt ·)) = [] := by
    cases rest with
    | nil => rfl
    | cons x rest => exact List.takeWhile_cons_of_neg (by simp [hrest x rfl])
  rw [metBeforeError, h, List.takeWhile_append_of_pos hall, hnone, List.append_nil]
  simp [List.reduceOption]

theorem not_formatsAt_of_error {e : Failure} (h : (reconcile d path .check).result = .error e) :
    ¬ d.FormatsAt path := by
  intro hformats
  have hstart : ({ disk := d } : Progress).failure = none := rfl
  have hvisit := Progress.failure_visit_check hstart hformats
  rw [Progress.visit_of_error hstart h] at hvisit
  cases hvisit

/-- Whether or not a check fails, it reports on the files that it has met before. -/
theorem exists_checked_of_run (d : Disk) (globs : List String) :
    ∃ q, Checked d (metBeforeError d globs) q ∧ (run d globs .check).reports = q.reports := by
  cases hfailure : (run d globs .check).failure with
  | none =>
    obtain ⟨found, hfound⟩ := exists_filesOf_of_run hfailure
    have hplain : (run d globs .check).plain = visitAll d found .check := plain_run hfound
    have hchecked : Checked d found (visitAll d found .check) := .visitAll (hplain ▸ hfailure)
    have hmet : metBeforeError d globs = found :=
      metBeforeError_eq [] (by rw [encounters_of_filesOf hfound, List.append_nil]) hchecked.formats
        (by simp)
    have hreports : (run d globs .check).plain.reports = _ := congrArg Progress.reports hplain
    rw [hmet]
    exact ⟨_, hchecked, hreports⟩
  | some e =>
    obtain ⟨earlier, glob, later, before, head, rfl, hbefore, hhandled, hplain, hstop⟩ :=
      exists_stop_of_run hfailure
    have hchecked : Checked d (before ++ head) (visitAll d (before ++ head) .check) :=
      .visitAll hhandled
    have hmet : metBeforeError d (earlier ++ glob :: later) = before ++ head := by
      -- A check has changed nothing where it stops, so the disk there is the one before.
      rw [disk_visitAll_check, disk_visitAll_check] at hstop
      rcases hstop with ⟨rfl, hglob, -⟩ | ⟨path, rest, hfiles, hresult, -⟩
      · refine metBeforeError_eq (none :: encounters d.toDirectoryTree later) ?_
          hchecked.formats (by simp)
        rw [encounters_append, encounters_of_filesOf hbefore, encounters_cons_of_error hglob,
          List.append_nil]
      · have hnot : ¬ d.FormatsAt path := not_formatsAt_of_error hresult
        refine metBeforeError_eq (some path :: (rest.map some ++ encounters d.toDirectoryTree later))
          ?_ hchecked.formats (by simp [hnot])
        rw [encounters_append, encounters_of_filesOf hbefore, encounters_cons_of_ok hfiles]
        simp
    have hreports : (run d (earlier ++ glob :: later) .check).plain.reports = _ :=
      congrArg Progress.reports hplain
    rw [hmet]
    exact ⟨_, hchecked, hreports⟩

/-- The reports of a check are those on the files that are not canonical, each with its diff. -/
theorem reports_run_check (d : Disk) (globs : List String) :
    (run d globs .check).reports.map Prod.fst =
        (metBeforeError d globs).filter (fun path => ¬ d.CanonicalAt path) ∧
      ∀ report ∈ (run d globs .check).reports, d.diff? report.1 = some report.2 := by
  obtain ⟨q, ⟨-, -, hsummary, hpaths, hdiffs⟩, hreports⟩ := exists_checked_of_run d globs
  rw [hreports]
  refine ⟨by rw [hpaths, hsummary], fun ⟨path, diff⟩ hmem => ?_⟩
  obtain ⟨number, text, out, hnumber, hcontent, hformat, rfl, -⟩ := hdiffs path diff hmem
  exact Disk.diff?_eq hnumber hcontent hformat

/-- A check passes if every file that is matched is canonical, and so has a canonical form. -/
theorem succeeds_run_check_iff : (run d globs .check).succeeds ↔
    Walkable d.toDirectoryTree globs ∧
      (∀ path, Matched d.toDirectoryTree globs path → d.FormatsAt path) ∧
      ∀ path, Matched d.toDirectoryTree globs path → d.CanonicalAt path := by
  rw [succeeds_run_iff succeeds_visitAll_check_iff]
  refine and_congr_right fun _ => ⟨fun h => ⟨fun path hpath => ?_, h⟩, fun h => h.2⟩
  exact formatsAt_of_canonicalAt (h path hpath)

/-! ### Runs that write -/

/-- The file at the path can be brought into canonical form: it is in it, or has one that can be
written. -/
def Rewritable (d : Disk) (path : Path) : Prop :=
  d.FormatsAt path ∧ (¬ d.CanonicalAt path → d.OverwritesAt path)

/-- Only the file itself matters, and whether it can be replaced. -/
theorem rewritable_iff (h : d.readable? path = some number) : Rewritable d path ↔
    ∃ out, Json.formatBytes (d.files number).content = .ok out ∧
      (¬ Json.IsCanonical (d.files number).content →
        d.Replaceable number out.toByteArray) := by
  have hreplace : ∀ content, (d.overwrite path content).2 = none ↔ d.Replaceable number content :=
    fun _ => Disk.overwrite_eq_none_iff (Disk.number?_of_readable? h)
  rw [Rewritable, Disk.formatsAt_iff h, Disk.canonicalAt_iff h]
  constructor
  · rintro ⟨⟨out, hformat⟩, hwrite⟩
    refine ⟨out, hformat, fun hnot => ?_⟩
    obtain ⟨number', out', hnumber', hformat', hover⟩ := hwrite hnot
    cases h.symm.trans hnumber'
    cases hformat.symm.trans hformat'
    exact (hreplace _).1 hover
  · rintro ⟨out, hformat, hreplaceable⟩
    refine ⟨⟨out, hformat⟩, fun hnot => ?_⟩
    exact ⟨number, out, h, hformat, (hreplace _).2 (hreplaceable hnot)⟩

theorem not_rewritable (h : d.readable? path = none) : ¬ Rewritable d path := by
  rintro ⟨⟨number, -, hnumber, -⟩, -⟩
  cases h.symm.trans hnumber

theorem exists_result_reconcile_write_iff :
    (∃ outcome, (reconcile d path .write).result = .ok outcome) ↔ Rewritable d path := by
  cases hnumber : d.readable? path with
  | none =>
    obtain ⟨e, hread⟩ := Disk.exists_error_of_read hnumber
    simp [reconcile, hread, not_rewritable hnumber]
  | some number =>
    rw [rewritable_iff hnumber]
    cases hformat : Json.formatBytes (d.files number).content with
    | error e => simp [reconcile, Disk.read_eq hnumber, hformat]
    | ok out =>
      by_cases hcanonical : Json.IsCanonical (d.files number).content
      · simp [reconcile_of_isCanonical hnumber hcanonical, hcanonical]
      · have hdata : (d.files number).content.data ≠ out.toByteArray.data := fun hsame =>
          hcanonical ((Json.isCanonical_iff hformat).2 (ByteArray.ext hsame.symm))
        simp only [reconcile, Disk.read_eq hnumber, hformat, hdata, if_false, hcanonical,
          not_false_eq_true, true_imp_iff, Except.ok.injEq, exists_eq_left',
          ← Disk.overwrite_eq_none_iff (Disk.number?_of_readable? hnumber)]
        rcases hover : d.overwrite path out.toByteArray with ⟨changed, _ | e⟩
        · simp
        · simp

theorem Progress.failure_visit_iff {mode : Mode} (hp : p.failure = none) :
    (p.visit mode path).failure = none ↔
      ∃ outcome, (reconcile p.disk path mode).result = .ok outcome := by
  cases hresult : (reconcile p.disk path mode).result with
  | error e => simp [visit_of_error hp hresult]
  | ok outcome => simp [visit, hp, hresult]

theorem Wrote.replaceable_iff {numbers : List Nat} {content : ByteArray} (h : Wrote d numbers p) :
    p.disk.Replaceable number content ↔ d.Replaceable number content := by
  rw [h.disk]
  exact ⟨fun h => ⟨h.write, h.setPermissions, h.fits⟩, fun h => ⟨h.write, h.setPermissions, h.fits⟩⟩

/-- What the run has written so far does not decide whether a file can be rewritten. -/
theorem Wrote.rewritable_iff {numbers : List Nat} (h : Wrote d numbers p)
    (hseen : ∀ n ∈ numbers, ∃ other, d.readable? other = some n ∧ Rewritable d other) :
    Rewritable p.disk path ↔ Rewritable d path := by
  have hsame : p.disk.readable? path = d.readable? path := by
    rw [h.disk]
    rfl
  cases hnumber : d.readable? path with
  | none => exact iff_of_false (not_rewritable (hsame.trans hnumber)) (not_rewritable hnumber)
  | some number =>
    have hnumber' : p.disk.readable? path = some number := hsame.trans hnumber
    by_cases hmem : number ∈ numbers
    · -- A file that has been met is canonical by now, and could be rewritten when it was met.
      obtain ⟨other, hother, hrewritable⟩ := hseen number hmem
      have hcanonical := h.isCanonical_of_mem hmem
      obtain ⟨out, hformat, -⟩ := id hcanonical
      refine iff_of_true ((Run.rewritable_iff hnumber').2 ⟨out, hformat, fun hnot => ?_⟩) ?_
      · exact absurd hcanonical hnot
      · exact (Run.rewritable_iff hnumber).2 ((Run.rewritable_iff hother).1 hrewritable)
    · simp only [Run.rewritable_iff hnumber', Run.rewritable_iff hnumber, h.replaceable_iff]
      rw [h.disk, Disk.files_formatted_of_not_mem hmem]

theorem exists_numbers_of_rewritable (h : ∀ path ∈ found, Rewritable d path) :
    ∃ numbers : List Nat, found.map d.number? = numbers.map some ∧
      ∀ n ∈ numbers, ∃ other, d.readable? other = some n ∧ Rewritable d other := by
  induction found with
  | nil => exact ⟨[], rfl, by simp⟩
  | cons path found ih =>
    obtain ⟨hpath, hfound⟩ := List.forall_mem_cons.1 h
    obtain ⟨⟨number, -, hnumber, -⟩, -⟩ := id hpath
    obtain ⟨numbers, hnumbers, hseen⟩ := ih hfound
    refine ⟨number :: numbers, ?_, List.forall_mem_cons.2 ⟨⟨path, hnumber, hpath⟩, hseen⟩⟩
    rw [List.map_cons, Disk.number?_of_readable? hnumber, hnumbers, List.map_cons]

theorem exists_wrote_of_visitAll (h : ∀ path ∈ found, Rewritable d path)
    (hfailure : (visitAll d found .write).failure = none) :
    ∃ numbers : List Nat, Wrote d numbers (visitAll d found .write) ∧
      ∀ n ∈ numbers, ∃ other, d.readable? other = some n ∧ Rewritable d other := by
  obtain ⟨numbers, hnumbers, hseen⟩ := exists_numbers_of_rewritable h
  exact ⟨numbers, (Wrote.start d).foldl_visit hnumbers hfailure, hseen⟩

theorem failure_visitAll_write_iff :
    (visitAll d found .write).failure = none ↔ ∀ path ∈ found, Rewritable d path := by
  induction found using List.reverseRecOn with
  | nil => simp [visitAll]
  | append_singleton found path ih =>
    rw [visitAll_concat, List.forall_mem_append, List.forall_mem_singleton, ← ih]
    by_cases hfailure : (visitAll d found .write).failure = none
    · have hrewritable := ih.1 hfailure
      obtain ⟨numbers, hwrote, hseen⟩ := exists_wrote_of_visitAll hrewritable hfailure
      rw [Progress.failure_visit_iff hfailure, exists_result_reconcile_write_iff,
        hwrote.rewritable_iff hseen]
      exact (and_iff_right hfailure).symm
    · exact iff_of_false (mt Progress.failure_of_visit hfailure) (fun h => hfailure h.1)

theorem succeeds_visitAll_write_iff (found : List Path) :
    (visitAll d found .write).succeeds ↔ ∀ path ∈ found, Rewritable d path := by
  rw [← failure_visitAll_write_iff]
  refine and_iff_left_of_imp fun hfailure => ?_
  obtain ⟨numbers, hwrote, -⟩ :=
    exists_wrote_of_visitAll (failure_visitAll_write_iff.1 hfailure) hfailure
  rw [hwrote.summary]
  rfl

theorem succeeds_run_write_iff : (run d globs .write).succeeds ↔
    Walkable d.toDirectoryTree globs ∧
      (∀ path, Matched d.toDirectoryTree globs path → d.FormatsAt path) ∧
      ∀ path, Matched d.toDirectoryTree globs path → ¬ d.CanonicalAt path → d.OverwritesAt path := by
  rw [succeeds_run_iff succeeds_visitAll_write_iff]
  simp only [Rewritable, imp_and, forall_and]

theorem reports_visit_write (p : Progress) (path : Path) :
    (p.visit .write path).reports = p.reports := by
  cases hp : p.failure with
  | some e => rw [Progress.visit_of_failure hp]
  | none =>
    have hpath := reconciles p.disk path .write
    simp only [Progress.visit, hp, Option.isSome_none, Bool.false_eq_true, if_false]
    generalize reconcile p.disk path .write = r at hpath
    cases hpath <;> rfl

theorem reports_expand_write (p : Progress) (glob : String) :
    (p.expand .write glob).reports = p.reports := by
  simp only [Progress.expand]
  split
  · rfl
  · split
    · rfl
    · refine List.foldlRecOn (motive := fun q : Progress => q.reports = p.reports) _ _ rfl ?_
      exact fun q hq path _ => (reports_visit_write q path).trans hq

theorem reports_run_write (d : Disk) (globs : List String) : (run d globs .write).reports = [] := by
  refine List.foldlRecOn (motive := fun p : Progress => p.reports = []) _ _ rfl ?_
  exact fun p hp glob _ => (reports_expand_write p glob).trans hp

end Run

end JsonLayout
