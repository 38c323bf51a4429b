import JsonLayout.Diff.Snake

/-! # Where to divide two texts

Paths grow from both ends at once. Where one from the start first meets one from the end, the
problem falls into two smaller ones. That they do meet, and at a point that divides the texts, is
due to the number of rounds done: no path to the end has fewer edits than both sides together have
tried. -/

namespace JsonLayout.Diff

/-- Rounds from both ends in turn. Two ends an odd number of lines apart meet in a round from the
start, others in a round from the end; `ra` and `rb` are the texts read from the end. -/
def meet (a b ra rb : Array String) (odd : Bool) (forward backward : Frontier) :
    Nat → Option (Nat × Nat)
  | 0 => none
  | rounds + 1 =>
      match advance a b (if odd then some backward else none) forward 0 #[] with
      | .inl snake => some (snake.oldStart, snake.newStart)
      | .inr forward' =>
          match advance ra rb (if odd then none else some forward') backward 0 #[] with
          | .inl snake => some (a.size - snake.oldEnd, b.size - snake.newEnd)
          | .inr backward' => meet a b ra rb odd forward' backward' rounds

/-- The point lies in the two texts and is neither their start nor their end. -/
def Divides (a b : Array String) (x y : Nat) : Prop :=
  x ≤ a.size ∧ y ≤ b.size ∧ 0 < x + y ∧ x + y < a.size + b.size

/-- A path on a diagonal near the end's stays in the texts if the end is far enough away. -/
theorem Path.in_range {a b : Array String} {d x y w : Nat} (p : Path a b d x y)
    (hfar : ∀ e, Path a b e a.size b.size → d + w ≤ e) (hold : x + b.size ≤ a.size + y + w)
    (hnew : a.size + y ≤ x + b.size + w) : x ≤ a.size ∧ y ≤ b.size := by
  obtain ⟨e, q, hle⟩ := p.exists_to_end
  have hd := hfar e q
  omega

/-- What paths with as many edits on both sides leave to be done, if there is no overlap. -/
theorem Frontier.Clear.not_path {a b : Array String} {f g : Frontier} {d e : Nat}
    (hclear : f.Clear a b (some g) d) (hf : f.Furthest a b d) (hfsize : f.size = d + 1)
    (hg : g.Furthest a.reverse b.reverse e) (hgsize : g.size = e + 1) :
    ¬ Path a b (d + e) a.size b.size := by
  intro p
  obtain ⟨x, y, hx, hy, p', q⟩ := p.exists_halves
  obtain ⟨i, hi, hdiagonal, hxi⟩ := hf.exists_entry hfsize p'
  obtain ⟨j, hj, hopposite, hxj⟩ := hg.exists_entry hgsize q
  have hreach : g.reach? ((a.size : Int) - b.size - (d - 2 * i)) = some g[j] :=
    Frontier.reach?_entry hj (by omega)
  have hoverlap := hclear i hi
  simp only [overlaps, Option.bind_some, hreach, Option.any_some, decide_eq_false_iff_not]
    at hoverlap
  omega

/-- The frontiers from both ends after some rounds without an overlap. -/
structure Meeting (a b : Array String) (forward backward : Frontier) : Prop where
  rounds : backward.size = forward.size
  start : forward.Furthest a b (forward.size - 1)
  finish : backward.Furthest a.reverse b.reverse (backward.size - 1)
  far : ∀ e, Path a b e a.size b.size → 2 * forward.size ≤ e + 1

namespace Meeting

variable {a b : Array String} {forward backward forward' backward' : Frontier}

theorem empty : Meeting a b #[] #[] where
  rounds := rfl
  start := Frontier.furthest_empty
  finish := Frontier.furthest_empty
  far := by simp

theorem next_start {facing : Option Frontier} (m : Meeting a b forward backward)
    (h : advance a b facing forward 0 #[] = .inr forward') :
    forward'.size = forward.size + 1 ∧ forward'.Furthest a b forward.size ∧
      forward'.Clear a b facing forward.size :=
  advance_frontier m.start Frontier.furthest_empty Frontier.clear_empty rfl (Nat.zero_le _) h

theorem next_finish {facing : Option Frontier} (m : Meeting a b forward backward)
    (h : advance a.reverse b.reverse facing backward 0 #[] = .inr backward') :
    backward'.size = backward.size + 1 ∧
      backward'.Furthest a.reverse b.reverse backward.size ∧
      backward'.Clear a.reverse b.reverse facing backward.size :=
  advance_frontier m.finish Frontier.furthest_empty Frontier.clear_empty rfl (Nat.zero_le _) h

/-- A round without an overlap rules out one more length; the parity of the texts rules out every
other one. -/
theorem next {odd : Bool} (m : Meeting a b forward backward)
    (hodd : odd = decide ((a.size + b.size) % 2 = 1))
    (hstart : advance a b (if odd then some backward else none) forward 0 #[] = .inr forward')
    (hfinish : advance a.reverse b.reverse (if odd then none else some forward') backward 0 #[] =
      .inr backward') : Meeting a b forward' backward' := by
  obtain ⟨hsize, hfurthest, hclear⟩ := m.next_start hstart
  obtain ⟨hsize', hfurthest', hclear'⟩ := m.next_finish hfinish
  have hrounds := m.rounds
  refine ⟨by omega, by rwa [hsize], by rwa [hsize'], ?_⟩
  intro e p
  have hfar := m.far e p
  have hparity := p.parity
  cases odd with
  | true =>
    have hmod : (a.size + b.size) % 2 = 1 := by simpa using hodd.symm
    simp only [if_true] at hclear
    by_cases hshort : e + 1 = 2 * forward.size
    · have hpath := hclear.not_path hfurthest hsize m.finish (by omega)
      rw [show forward.size + (backward.size - 1) = e by omega] at hpath
      exact absurd p hpath
    · omega
  | false =>
    have hmod : ¬ (a.size + b.size) % 2 = 1 := by simpa using hodd.symm
    simp only [Bool.false_eq_true, if_false] at hclear'
    by_cases hshort : e = 2 * forward.size
    · have hpath := hclear'.not_path hfurthest' hsize'
        (by simpa using hfurthest) (by omega)
      rw [show backward.size + forward.size = e by omega, Array.size_reverse,
        Array.size_reverse] at hpath
      exact absurd p.reverse hpath
    · omega

theorem start_divides (m : Meeting a b forward backward) (hapart : Apart a b)
    (hodd : (a.size + b.size) % 2 = 1) {snake : Snake}
    (h : advance a b (some backward) forward 0 #[] = .inl snake) :
    Divides a b snake.oldStart snake.newStart := by
  obtain ⟨i, hi, rfl, hoverlaps⟩ := advance_snake h
  obtain ⟨hdiagonal, p⟩ := Snake.next_start m.start hi
  obtain ⟨r, hreach, -⟩ := Option.any_eq_true .. |>.1 hoverlaps
  simp only [Option.bind_some] at hreach
  have hrounds := m.rounds
  obtain ⟨j, hj, hopposite, -⟩ := Frontier.entry_of_reach? hreach (by omega)
  have hfar : ∀ e, Path a b e a.size b.size → forward.size + (forward.size - 1) ≤ e := by
    intro e q
    have hlong := m.far e q
    omega
  obtain ⟨hx, hy⟩ := p.in_range hfar (by omega) (by omega)
  have hpos := p.le_add
  generalize (Snake.next a b forward i).oldStart = x at *
  generalize (Snake.next a b forward i).newStart = y at *
  -- the path from the start would be a whole one
  have hend : x + y ≠ a.size + b.size := by
    intro hend
    obtain rfl : x = a.size := by omega
    obtain rfl : y = b.size := by omega
    have hlong := m.far _ p
    have htwo := p.two_le_of_apart hapart
    omega
  exact ⟨hx, hy, by omega, by omega⟩

theorem finish_divides (m : Meeting a b forward backward) (hapart : Apart a b)
    (heven : (a.size + b.size) % 2 = 0) (hsize : forward'.size = forward.size + 1)
    (hfurthest : forward'.Furthest a b forward.size) {snake : Snake}
    (h : advance a.reverse b.reverse (some forward') backward 0 #[] = .inl snake) :
    snake.oldEnd ≤ a.size ∧ snake.newEnd ≤ b.size ∧
      Divides a b (a.size - snake.oldEnd) (b.size - snake.newEnd) := by
  obtain ⟨i, hi, rfl, hoverlaps⟩ := advance_snake h
  obtain ⟨hdiagonal, p⟩ := Snake.next_end m.finish hi
  obtain ⟨r, hreach, hr⟩ := Option.any_eq_true .. |>.1 hoverlaps
  simp only [Option.bind_some, Array.size_reverse] at hreach hr
  have hrounds := m.rounds
  obtain ⟨j, hj, hopposite, rfl⟩ := Frontier.entry_of_reach? hreach (by omega)
  have hfar : ∀ e, Path a.reverse b.reverse e a.reverse.size b.reverse.size →
      backward.size + forward.size ≤ e := by
    intro e q
    have hback : Path a b e a.size b.size := Path.of_reverse (by simpa using q)
    have hlong := m.far e hback
    have hparity := hback.parity
    omega
  obtain ⟨hx, hy⟩ := p.in_range hfar (by simp; omega) (by simp; omega)
  simp only [Array.size_reverse] at hx hy
  generalize (Snake.next a.reverse b.reverse backward i).oldEnd = x at *
  generalize (Snake.next a.reverse b.reverse backward i).newEnd = y at *
  -- the path from the end would be a whole one
  have hstart : x + y ≠ a.size + b.size := by
    intro hstart
    obtain rfl : x = a.size := by omega
    obtain rfl : y = b.size := by omega
    have hlong := m.far _ p.of_reverse
    have htwo := p.of_reverse.two_le_of_apart hapart
    omega
  -- nothing would be passed from either end
  have hend : x + y ≠ 0 := by
    intro hend
    have hzero := p.le_add
    obtain ⟨⟨z, -, q⟩, -⟩ := hfurthest j hj
    rw [show forward.size = 0 by omega] at q
    have hnone := q.zero_of_apart hapart
    have hold := hapart.old
    simp only [decide_eq_true_eq] at hr
    omega
  exact ⟨hx, hy, by omega, by omega, by omega, by omega⟩

end Meeting

section Meet

variable {a b : Array String} {forward backward : Frontier} {odd : Bool}

theorem meet_divides (hapart : Apart a b) (hodd : odd = decide ((a.size + b.size) % 2 = 1))
    (m : Meeting a b forward backward) {rounds x y : Nat}
    (h : meet a b a.reverse b.reverse odd forward backward rounds = some (x, y)) :
    Divides a b x y := by
  induction rounds generalizing forward backward with
  | zero => contradiction
  | succ rounds ih =>
    simp only [meet] at h
    split at h
    · rename_i snake hstart
      obtain ⟨rfl, rfl⟩ : snake.oldStart = x ∧ snake.newStart = y := by simpa using h
      cases odd with
      | true => exact m.start_divides hapart (by simpa using hodd.symm) hstart
      | false =>
        obtain ⟨i, -, -, hoverlaps⟩ := advance_snake hstart
        simp [overlaps] at hoverlaps
    · rename_i forward' hstart
      split at h
      · rename_i snake hfinish
        obtain ⟨rfl, rfl⟩ : a.size - snake.oldEnd = x ∧ b.size - snake.newEnd = y := by
          simpa using h
        cases odd with
        | true =>
          obtain ⟨i, -, -, hoverlaps⟩ := advance_snake hfinish
          simp [overlaps] at hoverlaps
        | false =>
          obtain ⟨hsize, hfurthest, -⟩ := m.next_start hstart
          have heven : ¬ (a.size + b.size) % 2 = 1 := by simpa using hodd.symm
          exact (m.finish_divides hapart (by omega) hsize hfurthest hfinish).2.2
      · rename_i backward' hfinish
        exact ih (m.next hodd hstart hfinish) h

/-- All edits together are a path to the end, so that the ends meet before they have tried as
many. -/
theorem meet_ne_none (hodd : odd = decide ((a.size + b.size) % 2 = 1))
    (m : Meeting a b forward backward) {rounds : Nat}
    (hrounds : a.size + b.size + 1 < 2 * (forward.size + rounds)) :
    meet a b a.reverse b.reverse odd forward backward rounds ≠ none := by
  induction rounds generalizing forward backward with
  | zero =>
    have hall := ((Path.start (a := a) (b := b)).add_old a.size).add_new b.size
    simp only [Nat.zero_add] at hall
    have hfar := m.far _ hall
    omega
  | succ rounds ih =>
    simp only [meet]
    split
    · simp
    · rename_i forward' hstart
      split
      · simp
      · rename_i backward' hfinish
        have hsize := (m.next_start hstart).1
        exact ih (m.next hodd hstart hfinish) (by omega)

end Meet

/-- A point that divides the two texts. -/
def divide (a b : Array String) (hapart : Apart a b) :
    { p : Nat × Nat // Divides a b p.1 p.2 } :=
  let odd := decide ((a.size + b.size) % 2 = 1)
  match h : meet a b a.reverse b.reverse odd #[] #[] ((a.size + b.size + 1) / 2 + 1) with
  | some p => ⟨p, meet_divides hapart rfl Meeting.empty h⟩
  | none => absurd h (meet_ne_none rfl Meeting.empty (by simp; omega))

end JsonLayout.Diff
