/-! # Paths of edits

A path leads from the start of two texts to a point, which is a number of old lines and a number of
new lines passed. An edit passes one line of one text, even past its end; equal lines are passed
together and cost nothing. -/

namespace JsonLayout.Diff

/-- A way with `d` edits to the point where `x` old and `y` new lines are passed. -/
inductive Path (a b : Array String) : Nat → Nat → Nat → Prop
  | start : Path a b 0 0 0
  | old {d x y : Nat} (p : Path a b d x y) : Path a b (d + 1) (x + 1) y
  | new {d x y : Nat} (p : Path a b d x y) : Path a b (d + 1) x (y + 1)
  | equal {d x y : Nat} (hx : x < a.size) (hy : y < b.size) (heq : a[x] = b[y])
      (p : Path a b d x y) : Path a b d (x + 1) (y + 1)

/-- The first lines of two texts differ, and so do the last ones. -/
structure Apart (a b : Array String) : Prop where
  old : 0 < a.size
  new : 0 < b.size
  first : a[0]? ≠ b[0]?
  last : a[a.size - 1]? ≠ b[b.size - 1]?

namespace Path

variable {a b : Array String} {d x y : Nat}

theorem le_add (p : Path a b d x y) : d ≤ x + y := by
  induction p <;> omega

theorem old_le (p : Path a b d x y) : x ≤ y + d := by
  induction p <;> omega

theorem new_le (p : Path a b d x y) : y ≤ x + d := by
  induction p <;> omega

theorem parity (p : Path a b d x y) : (d + x + y) % 2 = 0 := by
  induction p <;> omega

theorem add_old (p : Path a b d x y) (n : Nat) : Path a b (d + n) (x + n) y := by
  induction n with
  | zero => exact p
  | succ n ih => exact ih.old

theorem add_new (p : Path a b d x y) (n : Nat) : Path a b (d + n) x (y + n) := by
  induction n with
  | zero => exact p
  | succ n ih => exact ih.new

/-- A path stays in the texts if the edits past their ends are left out. -/
theorem clamp (p : Path a b d x y) :
    ∃ e, e + (x - a.size) + (y - b.size) ≤ d ∧ Path a b e (min x a.size) (min y b.size) := by
  induction p with
  | start => exact ⟨0, by omega, by simpa using start⟩
  | @old d x y p ih =>
    obtain ⟨e, hle, q⟩ := ih
    by_cases hx : x < a.size
    · refine ⟨e + 1, by omega, ?_⟩
      rw [show min (x + 1) a.size = min x a.size + 1 by omega]
      exact q.old
    · refine ⟨e, by omega, ?_⟩
      rw [show min (x + 1) a.size = min x a.size by omega]
      exact q
  | @new d x y p ih =>
    obtain ⟨e, hle, q⟩ := ih
    by_cases hy : y < b.size
    · refine ⟨e + 1, by omega, ?_⟩
      rw [show min (y + 1) b.size = min y b.size + 1 by omega]
      exact q.new
    · refine ⟨e, by omega, ?_⟩
      rw [show min (y + 1) b.size = min y b.size by omega]
      exact q
  | @equal d x y hx hy heq p ih =>
    obtain ⟨e, hle, q⟩ := ih
    refine ⟨e, by omega, ?_⟩
    rw [Nat.min_eq_left (by omega), Nat.min_eq_left (by omega)] at q ⊢
    exact equal hx hy heq q

/-- Every path can be led on to the end, with an edit for each line still to pass; what it passed
past the end of a text is saved. -/
theorem exists_to_end (p : Path a b d x y) :
    ∃ e, Path a b e a.size b.size ∧
      e + (x - a.size) + (y - b.size) ≤ d + (a.size - x) + (b.size - y) := by
  obtain ⟨e, hle, q⟩ := p.clamp
  have hend := (q.add_old (a.size - x)).add_new (b.size - y)
  rw [show min x a.size + (a.size - x) = a.size by omega,
    show min y b.size + (b.size - y) = b.size by omega] at hend
  exact ⟨_, hend, by omega⟩

theorem eq_of_zero (p : Path a b d x y) (hd : d = 0) : x = y ∧ (0 < x → a[0]? = b[0]?) := by
  induction p with
  | start => exact ⟨rfl, by omega⟩
  | old p ih => omega
  | new p ih => omega
  | @equal d x y hx hy heq p ih =>
    obtain ⟨hxy, hfirst⟩ := ih hd
    refine ⟨by omega, ?_⟩
    intro hlater
    by_cases hpos : 0 < x
    · exact hfirst hpos
    · obtain rfl : x = 0 := by omega
      obtain rfl : y = 0 := by omega
      simpa [hx, hy] using heq

theorem zero_of_apart (h : Apart a b) (p : Path a b 0 x y) : x = 0 ∧ y = 0 := by
  obtain ⟨rfl, hfirst⟩ := p.eq_of_zero rfl
  have hx : ¬ 0 < x := fun hpos => h.first (hfirst hpos)
  omega

/-- Texts that are apart are at least a removal and an addition apart. -/
theorem two_le_of_apart (h : Apart a b) (p : Path a b d a.size b.size) : 2 ≤ d := by
  have hold := h.old
  have hnew := h.new
  generalize hx : a.size = x at p
  generalize hy : b.size = y at p
  cases p with
  | start => omega
  | @old d x y p =>
    have hd : d ≠ 0 := by
      rintro rfl
      have := p.zero_of_apart h
      omega
    omega
  | @new d x y p =>
    have hd : d ≠ 0 := by
      rintro rfl
      have := p.zero_of_apart h
      omega
    omega
  | @equal d x y hx' hy' heq p =>
    refine absurd ?_ h.last
    rw [hx, hy]
    simpa [hx', hy'] using heq

section Reverse

variable {e : Nat}

theorem equal_reverse (hx : x < a.size) (hy : y < b.size) (heq : a[x] = b[y])
    (q : Path a.reverse b.reverse e (a.size - (x + 1)) (b.size - (y + 1))) :
    Path a.reverse b.reverse e (a.size - x) (b.size - y) := by
  have hback := equal (a := a.reverse) (b := b.reverse) (x := a.size - (x + 1))
    (y := b.size - (y + 1)) (by simp; omega) (by simp; omega) (by
      simp only [Array.getElem_reverse]
      simpa [show a.size - 1 - (a.size - (x + 1)) = x by omega,
        show b.size - 1 - (b.size - (y + 1)) = y by omega] using heq) q
  rwa [show a.size - (x + 1) + 1 = a.size - x by omega,
    show b.size - (y + 1) + 1 = b.size - y by omega] at hback

theorem old_reverse (hx : x < a.size)
    (q : Path a.reverse b.reverse e (a.size - (x + 1)) (b.size - y)) :
    Path a.reverse b.reverse (e + 1) (a.size - x) (b.size - y) := by
  have hback := q.old
  rwa [show a.size - (x + 1) + 1 = a.size - x by omega] at hback

theorem new_reverse (hy : y < b.size)
    (q : Path a.reverse b.reverse e (a.size - x) (b.size - (y + 1))) :
    Path a.reverse b.reverse (e + 1) (a.size - x) (b.size - y) := by
  have hback := q.new
  rwa [show b.size - (y + 1) + 1 = b.size - y by omega] at hback

/-- A path from the start and one from the end that meet can be made to meet anywhere else on the
first one. -/
theorem exists_meeting (p : Path a b d x y) (hx : x ≤ a.size) (hy : y ≤ b.size)
    (q : Path a.reverse b.reverse e (a.size - x) (b.size - y)) (i : Nat) (hi : i ≤ d) :
    ∃ x' y', x' ≤ a.size ∧ y' ≤ b.size ∧ Path a b i x' y' ∧
      Path a.reverse b.reverse (e + (d - i)) (a.size - x') (b.size - y') := by
  -- going back along the first path, each step is passed on to the second one
  induction p generalizing e with
  | start =>
    obtain rfl : i = 0 := by omega
    exact ⟨0, 0, by omega, by omega, start, by simpa using q⟩
  | @old d x y p ih =>
    by_cases hlast : i = d + 1
    · subst hlast
      exact ⟨x + 1, y, hx, hy, p.old, by simpa using q⟩
    · obtain ⟨x', y', hx', hy', p', q'⟩ := ih (by omega) hy (q.old_reverse (by omega)) (by omega)
      refine ⟨x', y', hx', hy', p', ?_⟩
      rwa [show e + (d + 1 - i) = e + 1 + (d - i) by omega]
  | @new d x y p ih =>
    by_cases hlast : i = d + 1
    · subst hlast
      exact ⟨x, y + 1, hx, hy, p.new, by simpa using q⟩
    · obtain ⟨x', y', hx', hy', p', q'⟩ := ih hx (by omega) (q.new_reverse (by omega)) (by omega)
      refine ⟨x', y', hx', hy', p', ?_⟩
      rwa [show e + (d + 1 - i) = e + 1 + (d - i) by omega]
  | @equal d x y hx' hy' heq p ih =>
    exact ih (by omega) (by omega) (q.equal_reverse hx' hy' heq) hi

/-- A path to the end can be gone from both ends at once. -/
theorem exists_halves {i j : Nat} (p : Path a b (i + j) a.size b.size) :
    ∃ x y, x ≤ a.size ∧ y ≤ b.size ∧ Path a b i x y ∧
      Path a.reverse b.reverse j (a.size - x) (b.size - y) := by
  obtain ⟨x, y, hx, hy, p', q⟩ := p.exists_meeting (e := 0) (Nat.le_refl _) (Nat.le_refl _)
    (by simpa using start) i (by omega)
  refine ⟨x, y, hx, hy, p', ?_⟩
  rwa [show 0 + (i + j - i) = j by omega] at q

theorem reverse_from (p : Path a b d x y) (hx : x ≤ a.size) (hy : y ≤ b.size)
    (q : Path a.reverse b.reverse e (a.size - x) (b.size - y)) :
    Path a.reverse b.reverse (e + d) a.size b.size := by
  induction p generalizing e with
  | start => exact q
  | @old d x y p ih =>
    have hback := ih (by omega) hy (q.old_reverse (by omega))
    rwa [show e + 1 + d = e + (d + 1) by omega] at hback
  | @new d x y p ih =>
    have hback := ih hx (by omega) (q.new_reverse (by omega))
    rwa [show e + 1 + d = e + (d + 1) by omega] at hback
  | @equal d x y hx' hy' heq p ih =>
    exact ih (by omega) (by omega) (q.equal_reverse hx' hy' heq)

theorem reverse (p : Path a b d a.size b.size) :
    Path a.reverse b.reverse d a.size b.size := by
  have hback := p.reverse_from (e := 0) (Nat.le_refl _) (Nat.le_refl _) (by simpa using start)
  rwa [Nat.zero_add] at hback

theorem of_reverse (p : Path a.reverse b.reverse d a.size b.size) :
    Path a b d a.size b.size := by
  have hback := reverse (a := a.reverse) (b := b.reverse) (by simpa using p)
  simpa using hback

end Reverse

end Path

end JsonLayout.Diff
