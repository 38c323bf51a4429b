import JsonLayout.Proofs.Run.Sequence
import Mathlib.Data.List.Infix

/-!
# The files that a run handles

A run over one glob handles the files of the glob in turn, up to the first at which it fails. It
counts each file that it handles, and reports some of them, in turn as well.
-/

namespace JsonLayout.Run

variable {d : Disk} {files : List Path} {path : Path} {mode : Mode} {p : Progress} {glob : String}

/-- The file that something has been made of. -/
def Event.handled? : Event → Option Path
  | .unchanged path | .differs path | .written path => some path
  | .matched _ | .skipped _ | .expanded .. | .finished .. => none

/-- The files that something has been made of, in order, a file as often as it has been met. -/
def Progress.handled (p : Progress) : List Path := p.events.filterMap Event.handled?

theorem Progress.handled_plain (p : Progress) : p.plain.handled = p.handled := by
  unfold plain handled
  rw [List.filterMap_filter]
  refine congrArg (List.filterMap · p.events) (funext fun event => ?_)
  cases event <;> rfl

/-- What a run has come to that takes the files in turn. -/
structure InTurn (files : List Path) (p : Progress) : Prop where
  handled : p.handled <+: files
  complete : p.failure = none → p.handled = files
  checked : p.summary.checked = p.handled.length
  reports : (p.reports.map Prod.fst).Sublist p.handled

namespace InTurn

theorem of_plain (h : InTurn files p.plain) : InTurn files p := by
  obtain ⟨hhandled, hcomplete, hchecked, hreports⟩ := h
  rw [Progress.handled_plain] at hhandled hcomplete hchecked hreports
  exact ⟨hhandled, hcomplete, hchecked, hreports⟩

theorem stop (h : InTurn files p) (hp : p.failure ≠ none) : InTurn (files ++ [path]) p :=
  ⟨h.handled.trans (List.prefix_append files [path]), fun hnone => absurd hnone hp, h.checked,
    h.reports⟩

/-- A file that something is made of comes after those that have been handled. -/
theorem concat {q : Progress} (h : InTurn files p) (hp : p.failure = none)
    (hhandled : q.handled = p.handled ++ [path])
    (hchecked : q.summary.checked = p.summary.checked + 1)
    (hreports : q.reports.map Prod.fst = p.reports.map Prod.fst ∨
      q.reports.map Prod.fst = p.reports.map Prod.fst ++ [path]) : InTurn (files ++ [path]) q := by
  rw [h.complete hp] at hhandled
  refine ⟨hhandled ▸ List.prefix_rfl, fun _ => hhandled, ?_, ?_⟩
  · rw [hchecked, h.checked, h.complete hp, hhandled, List.length_append, List.length_singleton]
  · have hbefore : (p.reports.map Prod.fst).Sublist files := h.complete hp ▸ h.reports
    rw [hhandled]
    rcases hreports with hsame | hmore
    · rw [hsame]
      exact hbefore.trans (List.sublist_append_left files [path])
    · rw [hmore]
      exact hbefore.append_right [path]

theorem visit (h : InTurn files p) : InTurn (files ++ [path]) (p.visit mode path) := by
  cases hp : p.failure with
  | some e =>
    rw [Progress.visit_of_failure hp]
    exact h.stop (by simp [hp])
  | none =>
    have hpath := reconciles p.disk path mode
    simp only [Progress.visit, hp, Option.isSome_none, Bool.false_eq_true, if_false]
    generalize reconcile p.disk path mode = r at hpath
    cases hpath with
    | refused | unwritten =>
      refine stop ⟨?_, (absurd · (by simp)), ?_, ?_⟩ (by simp)
      · simpa [Progress.handled] using h.handled
      · simpa [Progress.handled] using h.checked
      · simpa [Progress.handled] using h.reports
    | unchanged | written =>
      exact h.concat hp (by simp [Progress.handled, Event.handled?]) rfl (.inl rfl)
    | differs =>
      exact h.concat hp (by simp [Progress.handled, Event.handled?]) rfl (.inr (by simp))

theorem visitAll (d : Disk) (files : List Path) (mode : Mode) :
    InTurn files (visitAll d files mode) := by
  induction files using List.reverseRecOn with
  | nil => exact ⟨List.prefix_rfl, fun _ => rfl, rfl, List.Sublist.refl _⟩
  | append_singleton files path ih =>
    rw [visitAll_concat]
    exact ih.visit

theorem run_singleton (h : (Expansion.ofGlob d glob).files = .ok files) :
    InTurn files (run d [glob] mode) := by
  refine of_plain ?_
  rw [plain_run_singleton h]
  exact visitAll d files mode

end InTurn

end JsonLayout.Run
