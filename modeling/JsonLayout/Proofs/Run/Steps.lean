import JsonLayout.Proofs.Json.Bytes
import JsonLayout.Proofs.Run.Files
import JsonLayout.Run.Basic

/-!
# The steps of a run

What a run does with one file and with one glob, and that it goes no further once it has failed.
-/

namespace JsonLayout.Run

variable {d : Disk} {path : Path} {number : Nat} {mode : Mode} {p : Progress} {glob : String}

theorem reconcile_of_isCanonical (hnumber : d.readable? path = some number)
    (h : Json.IsCanonical (d.files number).content) (mode : Mode) :
    reconcile d path mode = ⟨d, [.unchanged path], .ok .unchanged⟩ := by
  obtain ⟨out, hformat, hout⟩ := h
  simp only [reconcile, Disk.read_eq hnumber, hformat, hout, if_true]

/-- What can come of a file: it cannot be read or has no canonical form, is canonical, is reported
or is written, or the writing fails. -/
inductive Reconciles (d : Disk) (path : Path) : Mode → Reconciled → Prop
  | refused {mode : Mode} {e : Failure} (he : ∀ cause, e ≠ .unwritable path cause)
      (h : ∀ number out, d.readable? path = some number →
        Json.formatBytes (d.files number).content ≠ .ok out) :
      Reconciles d path mode ⟨d, [], .error e⟩
  | unchanged {mode : Mode} {number : Nat} (hnumber : d.readable? path = some number)
      (h : Json.IsCanonical (d.files number).content) :
      Reconciles d path mode ⟨d, [.unchanged path], .ok .unchanged⟩
  | differs {number : Nat} {text out : String} (hnumber : d.readable? path = some number)
      (hcontent : (d.files number).content = text.toByteArray)
      (hformat : Json.format text = .ok out)
      (h : ¬ Json.IsCanonical (d.files number).content) :
      Reconciles d path .check ⟨d, [.differs path], .ok (.differs (Diff.unified text out))⟩
  | written {number : Nat} {out : String} (hnumber : d.readable? path = some number)
      (hformat : Json.formatBytes (d.files number).content = .ok out)
      (h : ¬ Json.IsCanonical (d.files number).content) :
      Reconciles d path .write
        ⟨d.setFile number { d.files number with content := out.toByteArray }, [.written path],
          .ok .written⟩
  | unwritten {number : Nat} {f : File} {cause : DiskError}
      (hnumber : d.readable? path = some number) :
      Reconciles d path .write ⟨d.setFile number f, [], .error (.unwritable path cause)⟩

theorem reconciles_of_format {out : String} (hnumber : d.readable? path = some number)
    (hformat : Json.formatBytes (d.files number).content = .ok out)
    (h : ¬ Json.IsCanonical (d.files number).content) (mode : Mode) :
    Reconciles d path mode (reconcile d path mode) := by
  have hdata : (d.files number).content.data ≠ out.toByteArray.data := fun hsame =>
    h ((Json.isCanonical_iff hformat).2 (ByteArray.ext hsame.symm))
  simp only [reconcile, Disk.read_eq hnumber, hformat, hdata, if_false]
  cases mode with
  | check =>
    obtain ⟨text, hcontent, htext⟩ := Json.exists_text_of_formatBytes hformat
    rw [hcontent, Json.fromUTF8?_toByteArray, Option.getD_some]
    exact .differs hnumber hcontent htext h
  | write =>
    have hfile := Disk.number?_of_readable? hnumber
    by_cases hreplaceable : d.Replaceable number out.toByteArray
    · rw [Disk.overwrite_of_replaceable hfile hreplaceable]
      exact .written hnumber hformat h
    · obtain ⟨f, e, hover⟩ := Disk.exists_overwrite_eq hfile hreplaceable
      rw [hover]
      exact .unwritten hnumber

theorem reconciles (d : Disk) (path : Path) (mode : Mode) :
    Reconciles d path mode (reconcile d path mode) := by
  cases hread : d.read path with
  | error e =>
    simp only [reconcile, hread]
    refine .refused (by simp) fun number out hnumber => ?_
    rw [Disk.read_eq hnumber] at hread
    cases hread
  | ok content =>
    obtain ⟨number, hnumber⟩ := Disk.exists_number_of_read hread
    cases hformat : Json.formatBytes (d.files number).content with
    | error e =>
      simp only [reconcile, Disk.read_eq hnumber, hformat]
      refine .refused (by simp) fun other out hother => ?_
      obtain rfl := Option.some.inj (hnumber.symm.trans hother)
      simp [hformat]
    | ok out =>
      by_cases h : Json.IsCanonical (d.files number).content
      · rw [reconcile_of_isCanonical hnumber h]
        exact .unchanged hnumber h
      · exact reconciles_of_format hnumber hformat h mode

/-- In write mode a file has been read and is canonical already, or is written, or the run ends. -/
theorem reconcile_write_cases (hnumber : d.number? path = some number) :
    (∃ e, (reconcile d path .write).result = .error e) ∨
      (d.refusals number).read = none ∧
        (Json.IsCanonical (d.files number).content ∨
          ∃ out, Json.formatBytes (d.files number).content = .ok out ∧
            ¬ Json.IsCanonical (d.files number).content ∧
            reconcile d path .write =
              ⟨d.setFile number { d.files number with content := out.toByteArray },
                [.written path], .ok .written⟩) := by
  have hpath := reconciles d path .write
  generalize hr : reconcile d path .write = r at hpath
  cases hpath with
  | refused | unwritten => exact .inl ⟨_, rfl⟩
  | unchanged hreadable h =>
    obtain ⟨hnumber', hallowed⟩ := Disk.readable?_eq_some_iff.1 hreadable
    obtain rfl := Option.some.inj (hnumber'.symm.trans hnumber)
    exact .inr ⟨hallowed, .inl h⟩
  | written hreadable hformat h =>
    obtain ⟨hnumber', hallowed⟩ := Disk.readable?_eq_some_iff.1 hreadable
    obtain rfl := Option.some.inj (hnumber'.symm.trans hnumber)
    exact .inr ⟨hallowed, .inr ⟨_, hformat, h, rfl⟩⟩

namespace Progress

theorem visit_of_ok {r : Reconciled} {outcome : Outcome} (hp : p.failure = none)
    (hr : reconcile p.disk path mode = r) (hresult : r.result = .ok outcome)
    (hreport : ∀ diff, outcome ≠ .differs diff) :
    p.visit mode path =
      { p with
        disk := r.disk
        summary := p.summary.record path outcome
        events := p.events ++ r.events } := by
  subst hr
  simp only [visit, hp, hresult, Option.isSome_none, Bool.false_eq_true, if_false]

theorem visit_of_isCanonical (hp : p.failure = none) (hnumber : p.disk.readable? path = some number)
    (h : Json.IsCanonical (p.disk.files number).content) :
    p.visit mode path =
      { p with
        summary := { p.summary with checked := p.summary.checked + 1 }
        events := p.events ++ [.unchanged path] } :=
  visit_of_ok hp (reconcile_of_isCanonical hnumber h mode) rfl (by simp)

theorem visit_of_error {e : Failure} (hp : p.failure = none)
    (h : (reconcile p.disk path mode).result = .error e) :
    (p.visit mode path).failure = some e := by
  simp only [visit, hp, h, Option.isSome_none, Bool.false_eq_true, if_false]

theorem visit_of_failure {e : Failure} (hp : p.failure = some e) : p.visit mode path = p := by
  simp [visit, hp]

theorem failure_of_visit (h : (p.visit mode path).failure = none) : p.failure = none := by
  cases hp : p.failure with
  | none => rfl
  | some e => rw [visit_of_failure hp, hp] at h; cases h

/-- A run that has failed goes no further. -/
theorem failure_of_foldl {α : Type} {step : Progress → α → Progress}
    (hstep : ∀ p x, (step p x).failure = none → p.failure = none) {xs : List α}
    (h : (xs.foldl step p).failure = none) : p.failure = none := by
  induction xs generalizing p with
  | nil => exact h
  | cons x xs ih => exact hstep p x (ih h)

theorem expand_of_ok {files : List Path} (hp : p.failure = none)
    (h : (Expansion.ofGlob p.disk glob).files = .ok files) :
    p.expand mode glob = files.foldl (visit mode)
      { p with events := p.events ++ (Expansion.ofGlob p.disk glob).events } := by
  simp only [expand, hp, h, Option.isSome_none, Bool.false_eq_true, if_false]

/-- A glob that has not ended the run has been expanded. -/
theorem exists_files_of_expand (h : (p.expand mode glob).failure = none) :
    p.failure = none ∧ ∃ files, (Expansion.ofGlob p.disk glob).files = .ok files := by
  have hp : p.failure = none := by
    cases hp : p.failure with
    | none => rfl
    | some e => simp [expand, hp] at h
  refine ⟨hp, ?_⟩
  cases hfiles : (Expansion.ofGlob p.disk glob).files with
  | ok files => exact ⟨files, rfl⟩
  | error e => simp [expand, hp, hfiles] at h

end Progress

end JsonLayout.Run
