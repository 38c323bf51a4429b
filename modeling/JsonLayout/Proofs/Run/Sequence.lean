import JsonLayout.Proofs.Run.Steps

/-!
# One run after another

A run over globs, or over files that are there already, is a run over the first of them and then,
unless that has failed, a run over the others on the disk that the first one has left. Apart from
what it reports about them, a run over globs is one over their files.
-/

namespace JsonLayout.Run

variable {d : Disk} {path : Path} {mode : Mode} {p : Progress} {glob : String} {globs : List String}

def Summary.add (s t : Summary) : Summary :=
  ⟨s.checked + t.checked, s.written + t.written, s.differing ++ t.differing⟩

/-- An event that says what has been made of a file. -/
def Event.isOutcome : Event → Bool
  | .unchanged _ | .differs _ | .written _ => true
  | .matched _ | .skipped _ | .expanded .. | .finished .. => false

/-- A run over files. -/
def visitAll (d : Disk) (paths : List Path) (mode : Mode) : Progress :=
  paths.foldl (Progress.visit mode) { disk := d }

namespace Progress

/-- Go on with another run on the disk that this one has left, unless it has failed. -/
def andThen (p : Progress) (next : Disk → Progress) : Progress :=
  if p.failure.isSome then p else
  let q := next p.disk
  { disk := q.disk
    summary := p.summary.add q.summary
    reports := p.reports ++ q.reports
    events := p.events ++ q.events
    failure := q.failure }

/-- The run without what it has reported about globs. -/
def plain (p : Progress) : Progress := { p with events := p.events.filter Event.isOutcome }

theorem disk_plain (p : Progress) : p.plain.disk = p.disk := rfl

variable {next more : Disk → Progress}

theorem andThen_of_failure {e : Failure} (hp : p.failure = some e) : p.andThen next = p := by
  simp [andThen, hp]

theorem andThen_of_ok (hp : p.failure = none) :
    p.andThen next =
      { disk := (next p.disk).disk
        summary := p.summary.add (next p.disk).summary
        reports := p.reports ++ (next p.disk).reports
        events := p.events ++ (next p.disk).events
        failure := (next p.disk).failure } := by
  simp [andThen, hp]

@[simp]
theorem start_andThen (d : Disk) (next : Disk → Progress) :
    ({ disk := d } : Progress).andThen next = next d := by
  simp [andThen, Summary.add]

@[simp]
theorem andThen_start (p : Progress) : (p.andThen fun d => { disk := d }) = p := by
  obtain ⟨disk, summary, reports, events, failure⟩ := p
  cases failure with
  | none => simp [andThen, Summary.add]
  | some e => simp [andThen]

theorem andThen_congr (h : p.failure = none → next p.disk = more p.disk) :
    p.andThen next = p.andThen more := by
  cases hp : p.failure with
  | none => rw [andThen_of_ok hp, andThen_of_ok hp, h hp]
  | some e => rw [andThen_of_failure hp, andThen_of_failure hp]

theorem failure_of_andThen (h : (p.andThen next).failure = none) : p.failure = none := by
  cases hp : p.failure with
  | none => rfl
  | some e => rw [andThen_of_failure hp, hp] at h; cases h

theorem andThen_assoc (p : Progress) (next more : Disk → Progress) :
    (p.andThen next).andThen more = p.andThen fun d => (next d).andThen more := by
  cases hp : p.failure with
  | some e => simp only [andThen_of_failure hp]
  | none =>
    simp only [andThen_of_ok hp]
    cases hq : (next p.disk).failure with
    | some e => simp [andThen, hq]
    | none => simp [andThen, hq, Summary.add, Nat.add_assoc]

theorem plain_andThen (p : Progress) (next : Disk → Progress) :
    (p.andThen next).plain = p.plain.andThen fun d => (next d).plain := by
  cases hp : p.failure with
  | some e =>
    have hplain : p.plain.failure = some e := hp
    rw [andThen_of_failure hp, andThen_of_failure hplain]
  | none =>
    have hplain : p.plain.failure = none := hp
    rw [andThen_of_ok hp, andThen_of_ok hplain]
    simp [plain]

theorem visit_eq_andThen (p : Progress) (path : Path) :
    p.visit mode path = p.andThen fun d => visit mode { disk := d } path := by
  cases hp : p.failure with
  | some e => rw [visit_of_failure hp, andThen_of_failure hp]
  | none =>
    rw [andThen_of_ok hp]
    simp only [visit, hp, Option.isSome_none, Bool.false_eq_true, if_false]
    cases (reconcile p.disk path mode).result with
    | error e => simp [Summary.add]
    | ok outcome => cases outcome <;> simp [Summary.add, Summary.record]

/-- A sequence of steps goes on from where its first ones have come to. -/
theorem foldl_eq_andThen {α : Type} {step : Progress → α → Progress}
    (hstep : ∀ p x, step p x = p.andThen fun d => step { disk := d } x) (xs : List α)
    (p : Progress) : xs.foldl step p = p.andThen fun d => xs.foldl step { disk := d } := by
  induction xs generalizing p with
  | nil => exact (andThen_start p).symm
  | cons x xs ih =>
    rw [List.foldl_cons, hstep, ih, andThen_assoc]
    congr
    funext d
    exact (ih _).symm

theorem expand_of_error {e : Failure} (hp : p.failure = none)
    (h : (Expansion.ofGlob p.disk glob).files = .error e) :
    p.expand mode glob =
      { p with
        events := p.events ++ (Expansion.ofGlob p.disk glob).events
        failure := some e } := by
  simp only [expand, hp, h, Option.isSome_none, Bool.false_eq_true, if_false]

theorem expand_eq_visitAll {files : List Path} (hp : p.failure = none)
    (h : (Expansion.ofGlob p.disk glob).files = .ok files) :
    p.expand mode glob =
      { p with events := p.events ++ (Expansion.ofGlob p.disk glob).events }.andThen
        (visitAll · files mode) :=
  (expand_of_ok hp h).trans (foldl_eq_andThen visit_eq_andThen files _)

theorem expand_eq_andThen (p : Progress) (glob : String) :
    p.expand mode glob = p.andThen fun d => expand mode { disk := d } glob := by
  cases hp : p.failure with
  | some e => simp [expand, andThen, hp]
  | none =>
    cases h : (Expansion.ofGlob p.disk glob).files with
    | error e =>
      have hstart : expand mode { disk := p.disk } glob = _ := expand_of_error rfl h
      rw [expand_of_error hp h, andThen_of_ok hp, hstart]
      simp [Summary.add]
    | ok files =>
      let expanded (d : Disk) : Progress :=
        { disk := d, events := (Expansion.ofGlob p.disk glob).events }
      have hstart : expand mode { disk := p.disk } glob =
          (expanded p.disk).andThen (visitAll · files mode) :=
        expand_eq_visitAll (p := { disk := p.disk }) rfl h
      calc p.expand mode glob
          = (p.andThen expanded).andThen (visitAll · files mode) := by
            have hexpanded : p.andThen expanded = _ := andThen_of_ok hp
            rw [expand_eq_visitAll hp h, hexpanded]
            simp [expanded, Summary.add, hp]
        _ = p.andThen fun d => (expanded d).andThen (visitAll · files mode) :=
            andThen_assoc _ _ _
        _ = p.andThen fun d => expand mode { disk := d } glob :=
            andThen_congr fun _ => hstart.symm

end Progress

theorem visitAll_append (d : Disk) (paths more : List Path) (mode : Mode) :
    visitAll d (paths ++ more) mode = (visitAll d paths mode).andThen (visitAll · more mode) := by
  rw [visitAll, List.foldl_append, Progress.foldl_eq_andThen Progress.visit_eq_andThen]
  rfl

theorem run_append (d : Disk) (globs more : List String) (mode : Mode) :
    run d (globs ++ more) mode = (run d globs mode).andThen (run · more mode) := by
  rw [run, List.foldl_append, Progress.foldl_eq_andThen Progress.expand_eq_andThen]
  rfl

theorem visitAll_concat (d : Disk) (paths : List Path) (path : Path) (mode : Mode) :
    visitAll d (paths ++ [path]) mode = (visitAll d paths mode).visit mode path :=
  List.foldl_append

theorem visitAll_cons (d : Disk) (path : Path) (paths : List Path) (mode : Mode) :
    visitAll d (path :: paths) mode = (visitAll d [path] mode).andThen (visitAll · paths mode) :=
  visitAll_append d [path] paths mode

theorem run_cons (d : Disk) (glob : String) (globs : List String) (mode : Mode) :
    run d (glob :: globs) mode = (run d [glob] mode).andThen (run · globs mode) :=
  run_append d [glob] globs mode

/-! ### What a run changes -/

theorem changedAt_visitAll_singleton (d : Disk) (path : Path) (mode : Mode) :
    d.ChangedAt [path] (visitAll d [path] mode).disk := by
  have hpath := reconciles d path mode
  simp only [visitAll, List.foldl_cons, List.foldl_nil, Progress.visit]
  generalize reconcile d path mode = r at hpath
  cases hpath with
  | refused | unchanged | differs => exact .refl d _
  | written hnumber | unwritten hnumber => exact .setFile (Disk.number?_of_readable? hnumber) _

theorem changedAt_visitAll (d : Disk) (paths : List Path) (mode : Mode) :
    d.ChangedAt paths (visitAll d paths mode).disk := by
  induction paths generalizing d with
  | nil => exact .refl d _
  | cons path paths ih =>
    have hpath := changedAt_visitAll_singleton d path mode
    rw [visitAll_cons]
    cases hfailure : (visitAll d [path] mode).failure with
    | none =>
      rw [Progress.andThen_of_ok hfailure]
      exact hpath.append (ih _)
    | some e =>
      rw [Progress.andThen_of_failure hfailure]
      exact hpath.append (.refl _ paths)

/-! ### Globs and their files -/

theorem Expansion.isOutcome_of_mem_collect {t : DirectoryTree} {events : List Event}
    {before : List Path} {found : List Glob.Found}
    (h : ∀ event ∈ events, event.isOutcome = false) :
    ∀ event ∈ (collect t glob events before found).events, event.isOutcome = false := by
  induction found generalizing events before with
  | nil => simpa [collect, or_imp, forall_and, Event.isOutcome] using h
  | cons x found ih =>
    cases x with
    | error e => exact h
    | ok path =>
      unfold collect
      split <;> exact ih (by simpa [or_imp, forall_and, Event.isOutcome] using h)

theorem Expansion.isOutcome_of_mem_ofGlob {t : DirectoryTree} :
    ∀ event ∈ (ofGlob t glob).events, event.isOutcome = false := by
  unfold ofGlob
  split
  · simp
  · exact isOutcome_of_mem_collect (by simp)

theorem Expansion.filter_isOutcome_ofGlob (t : DirectoryTree) (glob : String) :
    (ofGlob t glob).events.filter Event.isOutcome = [] :=
  List.filter_eq_nil_iff.2 fun event hevent => by simp [isOutcome_of_mem_ofGlob event hevent]

theorem plain_visitAll (d : Disk) (paths : List Path) (mode : Mode) :
    (visitAll d paths mode).plain = visitAll d paths mode := by
  induction paths generalizing d with
  | nil => rfl
  | cons path paths ih =>
    have hpath : (visitAll d [path] mode).plain = visitAll d [path] mode := by
      have hpath := reconciles d path mode
      simp only [visitAll, List.foldl_cons, List.foldl_nil, Progress.visit]
      generalize reconcile d path mode = r at hpath
      cases hpath <;> rfl
    rw [visitAll_cons, Progress.plain_andThen, hpath]
    exact Progress.andThen_congr fun _ => ih _

theorem plain_run_singleton {files : List Path} (h : (Expansion.ofGlob d glob).files = .ok files) :
    (run d [glob] mode).plain = visitAll d files mode := by
  rw [run, List.foldl_cons, List.foldl_nil, Progress.expand_eq_visitAll rfl h,
    Progress.plain_andThen, Progress.plain, List.nil_append, Expansion.filter_isOutcome_ofGlob]
  simp [plain_visitAll]

theorem plain_run_singleton_of_error {e : Failure}
    (h : (Expansion.ofGlob d glob).files = .error e) :
    (run d [glob] mode).plain = { disk := d, failure := some e } := by
  rw [run, List.foldl_cons, List.foldl_nil, Progress.expand_of_error rfl h, Progress.plain,
    List.nil_append, Expansion.filter_isOutcome_ofGlob]

/-- A run over globs does what a run over the files does that they find on the disk before. -/
theorem plain_run {found : List Path} (h : filesOf d globs = .ok found) :
    (run d globs mode).plain = visitAll d found mode := by
  induction globs generalizing d found with
  | nil =>
    obtain rfl : [] = found := Except.ok.inj h
    rfl
  | cons glob globs ih =>
    obtain ⟨files, more, hfiles, hmore, rfl⟩ := filesOf_cons_eq_ok_iff.1 h
    rw [run_cons, Progress.plain_andThen, plain_run_singleton hfiles, visitAll_append]
    refine Progress.andThen_congr fun _ => ih ?_
    rw [(changedAt_visitAll d files mode).toDirectoryTree]
    exact hmore

/-- A run that does not fail has found the files of all its globs. -/
theorem exists_filesOf_of_run (h : (run d globs mode).failure = none) :
    ∃ found, filesOf d globs = .ok found := by
  induction globs generalizing d with
  | nil => exact ⟨[], rfl⟩
  | cons glob globs ih =>
    rw [run_cons] at h
    have hfirst : (run d [glob] mode).failure = none := Progress.failure_of_andThen h
    obtain ⟨-, files, hfiles⟩ := Progress.exists_files_of_expand (p := { disk := d }) hfirst
    have hdisk : (run d [glob] mode).disk = (visitAll d files mode).disk := by
      rw [← Progress.disk_plain, plain_run_singleton hfiles]
    rw [Progress.andThen_of_ok hfirst] at h
    obtain ⟨more, hmore⟩ := ih h
    rw [hdisk, (changedAt_visitAll d files mode).toDirectoryTree] at hmore
    exact ⟨files ++ more, filesOf_cons_eq_ok_iff.2 ⟨files, more, hfiles, hmore, rfl⟩⟩

end JsonLayout.Run
