import JsonLayout.Diff.Edit

/-! # Tidying a script

Runs of added lines that could as well stand earlier or later are moved up and then down as far as
they go, edits of one kind that come to touch are joined, and removals and additions change places
freely. First every removal is moved, then every addition. -/

namespace JsonLayout.Diff

/-- A script with one edit in focus; the edits before it are listed nearest first. -/
structure Focus where
  before : Script
  edit : Edit
  after : Script

namespace Focus

def toScript (f : Focus) : Script := f.before.reverse ++ f.edit :: f.after

/-- Put kept lines right after the edit, as part of the kept lines there if there are any. -/
def keepAfter (lines : List String) (old new : Nat) : Script → Script
  | [] => [⟨.kept, lines, old, new⟩]
  | e :: rest =>
      if e.kind = .kept then
        { e with lines := lines ++ e.lines, old := e.old - lines.length,
                 new := e.new - lines.length } :: rest
      else ⟨.kept, lines, old, new⟩ :: e :: rest

/-- Put kept lines right before the edit, as part of the kept lines there if there are any. -/
def keepBefore (lines : List String) (old new : Nat) : Script → Script
  | [] => [⟨.kept, lines, old, new⟩]
  | e :: rest =>
      if e.kind = .kept then { e with lines := e.lines ++ lines } :: rest
      else ⟨.kept, lines, old, new⟩ :: e :: rest

/-- How many of the kept lines before an edit it can move past: those it ends with itself. -/
def slackUp (edit : Edit) (kept : List String) : Nat :=
  if edit.kind = .added then commonSuffix kept edit.lines else 0

def slackDown (edit : Edit) (kept : List String) : Nat :=
  if edit.kind = .added then commonPrefix kept edit.lines else 0

/-- Move an edit up past the last `n` kept lines before it. -/
def slideUp (n : Nat) (before : Script) (q t : Edit) (after : Script) : Focus :=
  let moved := q.lines.drop (q.lines.length - n)
  { before := Script.push { q with lines := q.lines.take (q.lines.length - n) } before
    edit := { t with lines := moved ++ t.lines.take (t.lines.length - n), old := t.old - n,
                     new := t.new - n }
    after := keepAfter moved (q.old + q.lines.length - n) (t.new + t.lines.length - n) after }

def slideDown (n : Nat) (before : Script) (t q : Edit) (after : Script) : Focus :=
  let moved := q.lines.take n
  { before := keepBefore moved q.old t.new before
    edit := { t with lines := t.lines.drop n ++ moved, old := t.old + n, new := t.new + n }
    after := Script.push { q with lines := q.lines.drop n, old := q.old + n, new := q.new + n }
      after }

/-- One move of the edit in focus towards the start. -/
def up? : Focus → Option Focus
  | ⟨[], _, _⟩ => none
  | ⟨q :: before, t, after⟩ =>
      if q.kind = .kept then
        let n := slackUp t q.lines
        if 0 < n then some (slideUp n before q t after)
        else if q.lines.isEmpty then some ⟨before, t, after⟩
        else none
      else if q.kind = t.kind then some ⟨before, { q with lines := q.lines ++ t.lines }, after⟩
      else some ⟨before, t, q :: after⟩

def down? : Focus → Option Focus
  | ⟨_, _, []⟩ => none
  | ⟨before, t, q :: after⟩ =>
      if q.kind = .kept then
        let n := slackDown t q.lines
        if 0 < n then some (slideDown n before t q after)
        else if q.lines.isEmpty then some ⟨before, t, after⟩
        else none
      else if q.kind = t.kind then some ⟨before, { t with lines := t.lines ++ q.lines }, after⟩
      else some ⟨q :: before, t, after⟩

/-- What one move can do. -/
inductive Step : Focus → Focus → Prop
  | slideUp {q t : Edit} {before after : Script} {left moved rest : List String}
      (hq : q.kind = .kept) (ht : t.kind = .added) (hmoved : moved ≠ [])
      (hleft : q.lines = left ++ moved) (hrest : t.lines = rest ++ moved) :
      Step ⟨q :: before, t, after⟩
        { before := Script.push { q with lines := left } before
          edit := { t with lines := moved ++ rest, old := t.old - moved.length,
                           new := t.new - moved.length }
          after := keepAfter moved (q.old + left.length) (t.new + rest.length) after }
  | slideDown {q t : Edit} {before after : Script} {left moved rest : List String}
      (hq : q.kind = .kept) (ht : t.kind = .added) (hmoved : moved ≠ [])
      (hleft : q.lines = moved ++ left) (hrest : t.lines = moved ++ rest) :
      Step ⟨before, t, q :: after⟩
        { before := keepBefore moved q.old t.new before
          edit := { t with lines := rest ++ moved, old := t.old + moved.length,
                           new := t.new + moved.length }
          after := Script.push { q with lines := left, old := q.old + moved.length,
                                        new := q.new + moved.length } after }
  | skipUp {q t : Edit} {before after : Script} (hq : q.kind = .kept) (hempty : q.lines = []) :
      Step ⟨q :: before, t, after⟩ ⟨before, t, after⟩
  | skipDown {q t : Edit} {before after : Script} (hq : q.kind = .kept) (hempty : q.lines = []) :
      Step ⟨before, t, q :: after⟩ ⟨before, t, after⟩
  | joinUp {q t : Edit} {before after : Script} (hq : q.kind ≠ .kept) (hkind : q.kind = t.kind) :
      Step ⟨q :: before, t, after⟩ ⟨before, { q with lines := q.lines ++ t.lines }, after⟩
  | joinDown {q t : Edit} {before after : Script} (hq : q.kind ≠ .kept) (hkind : q.kind = t.kind) :
      Step ⟨before, t, q :: after⟩ ⟨before, { t with lines := t.lines ++ q.lines }, after⟩
  | swapUp {q t : Edit} {before after : Script} (hq : q.kind ≠ .kept) (hkind : q.kind ≠ t.kind) :
      Step ⟨q :: before, t, after⟩ ⟨before, t, q :: after⟩
  | swapDown {q t : Edit} {before after : Script} (hq : q.kind ≠ .kept) (hkind : q.kind ≠ t.kind) :
      Step ⟨before, t, q :: after⟩ ⟨q :: before, t, after⟩

theorem exists_commonSuffix (a b : List String) : ∃ left rest moved,
    a = left ++ moved ∧ b = rest ++ moved ∧ moved.length = commonSuffix a b := by
  have hle := commonSuffix_le a b
  refine ⟨a.take (a.length - commonSuffix a b), b.take (b.length - commonSuffix a b),
    a.drop (a.length - commonSuffix a b), by simp, ?_, ?_⟩
  · rw [drop_commonSuffix, List.take_append_drop]
  · rw [List.length_drop]
    omega

theorem exists_commonPrefix (a b : List String) : ∃ left rest moved,
    a = moved ++ left ∧ b = moved ++ rest ∧ moved.length = commonPrefix a b := by
  have hle := commonPrefix_le a b
  refine ⟨a.drop (commonPrefix a b), b.drop (commonPrefix a b), a.take (commonPrefix a b),
    by simp, ?_, ?_⟩
  · rw [take_commonPrefix, List.take_append_drop]
  · rw [List.length_take]
    omega

theorem slackUp_le (t : Edit) (kept : List String) : slackUp t kept ≤ kept.length := by
  unfold slackUp
  split
  · exact (commonSuffix_le _ _).1
  · exact Nat.zero_le _

theorem slackDown_le (t : Edit) (kept : List String) : slackDown t kept ≤ kept.length := by
  unfold slackDown
  split
  · exact (commonPrefix_le _ _).1
  · exact Nat.zero_le _

theorem step_slideUp {q t : Edit} {before after : Script} (hq : q.kind = .kept)
    (hpos : 0 < slackUp t q.lines) :
    Step ⟨q :: before, t, after⟩ (slideUp (slackUp t q.lines) before q t after) := by
  have ht : t.kind = .added := by
    by_cases ht : t.kind = .added
    · exact ht
    · simp [slackUp, ht] at hpos
  obtain ⟨left, rest, moved, hleft, hrest, hlength⟩ := exists_commonSuffix q.lines t.lines
  have hn : slackUp t q.lines = moved.length := by simp [slackUp, ht, hlength]
  have hmoved : moved ≠ [] := List.ne_nil_of_length_pos (by omega)
  have hstep : Step ⟨q :: before, t, after⟩ _ := .slideUp hq ht hmoved hleft hrest
  rw [hn]
  simpa [slideUp, hleft, hrest, ← Nat.add_assoc] using hstep

theorem step_slideDown {q t : Edit} {before after : Script} (hq : q.kind = .kept)
    (hpos : 0 < slackDown t q.lines) :
    Step ⟨before, t, q :: after⟩ (slideDown (slackDown t q.lines) before t q after) := by
  have ht : t.kind = .added := by
    by_cases ht : t.kind = .added
    · exact ht
    · simp [slackDown, ht] at hpos
  obtain ⟨left, rest, moved, hleft, hrest, hlength⟩ := exists_commonPrefix q.lines t.lines
  have hn : slackDown t q.lines = moved.length := by simp [slackDown, ht, hlength]
  have hmoved : moved ≠ [] := List.ne_nil_of_length_pos (by omega)
  have hstep : Step ⟨before, t, q :: after⟩ _ := .slideDown hq ht hmoved hleft hrest
  rw [hn]
  simpa [slideDown, hleft, hrest] using hstep

theorem step_of_up? {f g : Focus} (h : up? f = some g) :
    Step f g ∧ g.before.weight < f.before.weight := by
  obtain ⟨before, t, after⟩ := f
  cases before with
  | nil => contradiction
  | cons q before =>
    simp only [up?] at h
    split at h
    · rename_i hq
      split at h
      · rename_i hpos
        obtain rfl := Option.some.inj h
        refine ⟨step_slideUp hq hpos, Nat.lt_of_le_of_lt (Script.weight_push_le _ _) ?_⟩
        have hslack := slackUp_le t q.lines
        simp only [List.length_take, Script.weight_cons]
        omega
      · split at h
        · rename_i hempty
          obtain rfl := Option.some.inj h
          exact ⟨.skipUp hq (List.isEmpty_iff.1 hempty), by simp⟩
        · contradiction
    · rename_i hq
      split at h
      · rename_i hkind
        obtain rfl := Option.some.inj h
        exact ⟨.joinUp hq hkind, by simp⟩
      · rename_i hkind
        obtain rfl := Option.some.inj h
        exact ⟨.swapUp hq hkind, by simp⟩

theorem step_of_down? {f g : Focus} (h : down? f = some g) :
    Step f g ∧ g.after.weight < f.after.weight := by
  obtain ⟨before, t, after⟩ := f
  cases after with
  | nil => contradiction
  | cons q after =>
    simp only [down?] at h
    split at h
    · rename_i hq
      split at h
      · rename_i hpos
        obtain rfl := Option.some.inj h
        refine ⟨step_slideDown hq hpos, Nat.lt_of_le_of_lt (Script.weight_push_le _ _) ?_⟩
        have hslack := slackDown_le t q.lines
        simp only [List.length_drop, Script.weight_cons]
        omega
      · split at h
        · rename_i hempty
          obtain rfl := Option.some.inj h
          exact ⟨.skipDown hq (List.isEmpty_iff.1 hempty), by simp⟩
        · contradiction
    · rename_i hq
      split at h
      · rename_i hkind
        obtain rfl := Option.some.inj h
        exact ⟨.joinDown hq hkind, by simp⟩
      · rename_i hkind
        obtain rfl := Option.some.inj h
        exact ⟨.swapDown hq hkind, by simp⟩

/-- Move an edit towards the start as far as it goes. -/
def up (f : Focus) : Focus :=
  match _h : up? f with
  | some g => up g
  | none => f
termination_by f.before.weight
decreasing_by exact (step_of_up? _h).2

/-- Move an edit towards the end as far as it goes. -/
def down (f : Focus) : Focus :=
  match _h : down? f with
  | some g => down g
  | none => f
termination_by f.after.weight
decreasing_by exact (step_of_down? _h).2

def settle (f : Focus) : Focus := down (up f)

/-- What every move preserves still holds when the edit has come to rest. -/
theorem settle_induction {motive : Focus → Prop} {f : Focus} (hf : motive f)
    (hstep : ∀ g g', Step g g' → motive g → motive g') : motive (settle f) := by
  have hup : motive (up f) := by
    fun_induction up f with
    | case1 f g h ih => exact ih (hstep f g (step_of_up? h).1 hf)
    | case2 f h => exact hf
  unfold settle
  generalize up f = f at hup
  fun_induction down f with
  | case1 f g h ih => exact ih (hstep f g (step_of_down? h).1 hup)
  | case2 f h => exact hup

theorem Step.edit_kind {f g : Focus} (h : Step f g) : g.edit.kind = f.edit.kind := by
  cases h with
  | joinUp hq hkind => exact hkind
  | _ => rfl

/-- Edits of the kind that moves are at most joined with the one that moves. -/
theorem Step.count_after_le {f g : Focus} (h : Step f g) :
    g.after.count f.edit.kind ≤ f.after.count f.edit.kind := by
  cases h with
  | slideUp hq ht hmoved hleft hrest =>
    rename_i after _ _ _
    cases after with
    | nil => simp [keepAfter, Script.count, ht]
    | cons e after => by_cases he : e.kind = .kept <;> simp [keepAfter, Script.count, ht, he]
  | slideDown hq ht hmoved hleft hrest =>
    simp only [Script.push, Script.count, hq, ht]
    split <;> simp [hq]
  | swapUp hq hkind => simp [Script.count, hkind]
  | skipDown | joinDown | swapDown => simp [Script.count, List.countP_cons]
  | skipUp | joinUp => exact Nat.le_refl _

theorem count_after_settle_le (f : Focus) :
    (settle f).after.count f.edit.kind ≤ f.after.count f.edit.kind := by
  have h := settle_induction (f := f)
    (motive := fun g => g.edit.kind = f.edit.kind ∧
      g.after.count f.edit.kind ≤ f.after.count f.edit.kind) ⟨rfl, Nat.le_refl _⟩ ?_
  · exact h.2
  · intro g g' hstep hg
    have hkind := hstep.edit_kind
    have hcount := hstep.count_after_le
    rw [hg.1] at hkind hcount
    exact ⟨hkind, Nat.le_trans hcount hg.2⟩

end Focus

/-- Move each edit of one kind in turn, going on after the place where it comes to rest. -/
def sweepFrom (kind : EditKind) (before : Script) : Script → Script
  | [] => before.reverse
  | e :: rest =>
      if e.kind = kind then
        let f := Focus.settle ⟨before, e, rest⟩
        sweepFrom kind (f.edit :: f.before) f.after
      else sweepFrom kind (e :: before) rest
termination_by rest => (Script.count kind rest, rest.length)
decreasing_by
  · rename_i hkind
    have hcount := Focus.count_after_settle_le ⟨before, e, rest⟩
    simp only [hkind] at hcount
    refine Prod.Lex.left _ _ (Nat.lt_of_le_of_lt hcount ?_)
    simp [Script.count, hkind]
  · rename_i hkind
    rw [show Script.count kind (e :: rest) = Script.count kind rest by simp [Script.count, hkind]]
    exact Prod.Lex.right _ (Nat.lt_succ_self _)

def sweep (kind : EditKind) (s : Script) : Script := sweepFrom kind [] s

def compact (s : Script) : Script := sweep .added (sweep .removed s)

end JsonLayout.Diff
