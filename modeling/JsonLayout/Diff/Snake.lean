import JsonLayout.Diff.Path

/-! # Snakes

The best paths of edits from one end grow by one edit in each round, and always pass equal lines for
free. The diagonal of a point is the number of old lines passed less the number of new ones. -/

namespace JsonLayout.Diff

/-- For paths with `d` edits, the most old lines passed on each diagonal: entry `i` belongs to the
diagonal `d - 2 * i`. -/
abbrev Frontier := Array Nat

namespace Frontier

/-- A frontier without gaps has one entry more than its paths have edits. -/
def reach? (f : Frontier) (diagonal : Int) : Option Nat :=
  let below := (f.size : Int) - 1 - diagonal
  if 0 ≤ below then f[(below / 2).toNat]? else none

/-- Old lines passed by the best path with one more edit when it enters the diagonal of entry `i`:
from the diagonal above by a new line, or from the one below by an old line. -/
def entering (f : Frontier) : Nat → Nat
  | 0 => match f[0]? with
      | some below => below + 1
      | none => 0
  | i + 1 =>
      let above := f.getD i 0
      match f[i + 1]? with
      | some below => if below < above then above else below + 1
      | none => above

/-- Every entry is reached by a path with `d` edits, and no such path passes more old lines on the
same diagonal. -/
def Furthest (a b : Array String) (d : Nat) (f : Frontier) : Prop :=
  ∀ i (h : i < f.size), (∃ y, y + d = f[i] + 2 * i ∧ Path a b d f[i] y) ∧
    ∀ x y, Path a b d x y → y + d = x + 2 * i → x ≤ f[i]

variable {a b : Array String} {f : Frontier} {d i : Nat}

theorem furthest_empty : Furthest a b d #[] := by
  intro i h
  simp at h

theorem reach?_entry (h : i < f.size) {diagonal : Int}
    (hdiagonal : diagonal = f.size - 1 - 2 * i) : f.reach? diagonal = some f[i] := by
  subst hdiagonal
  have hbelow : (((f.size : Int) - 1 - (f.size - 1 - 2 * i)) / 2).toNat = i := by omega
  simp only [reach?, hbelow]
  rw [if_pos (by omega)]
  exact Array.getElem?_eq_getElem h

theorem entry_of_reach? {diagonal : Int} {r : Nat} (h : f.reach? diagonal = some r)
    (hparity : ((f.size : Int) - 1 - diagonal) % 2 = 0) :
    ∃ i, ∃ h : i < f.size, diagonal = f.size - 1 - 2 * i ∧ f[i] = r := by
  simp only [reach?] at h
  split at h
  · obtain ⟨hi, hr⟩ := Array.getElem?_eq_some_iff.1 h
    exact ⟨_, hi, by omega, hr⟩
  · contradiction

theorem Furthest.exists_entry (hf : Furthest a b d f) (hsize : f.size = d + 1) {x y : Nat}
    (p : Path a b d x y) : ∃ i, ∃ h : i < f.size, y + d = x + 2 * i ∧ x ≤ f[i] := by
  have hold := p.old_le
  have hnew := p.new_le
  have hparity := p.parity
  have hi : y + d = x + 2 * ((y + d - x) / 2) := by omega
  exact ⟨(y + d - x) / 2, by omega, hi, (hf _ _).2 x y p hi⟩

/-- A path keeps the number of its entry with one more old line and gets the next number with one
more new line. -/
theorem Furthest.old_reached (hf : Furthest a b (f.size - 1) f) (h : i < f.size) :
    ∃ y, y + f.size = f[i] + 1 + 2 * i ∧ Path a b f.size (f[i] + 1) y := by
  obtain ⟨⟨y, hy, p⟩, -⟩ := hf i h
  have hsize : f.size - 1 + 1 = f.size := by omega
  have q := p.old
  rw [hsize] at q
  exact ⟨y, by omega, q⟩

theorem Furthest.new_reached (hf : Furthest a b (f.size - 1) f) (h : i < f.size) :
    ∃ y, y + f.size = f[i] + 2 * (i + 1) ∧ Path a b f.size f[i] y := by
  obtain ⟨⟨y, hy, p⟩, -⟩ := hf i h
  have hsize : f.size - 1 + 1 = f.size := by omega
  have q := p.new
  rw [hsize] at q
  exact ⟨y + 1, by omega, q⟩

theorem Furthest.entering_reached (hf : Furthest a b (f.size - 1) f) (hi : i ≤ f.size) :
    ∃ y, y + f.size = f.entering i + 2 * i ∧ Path a b f.size (f.entering i) y := by
  cases i with
  | zero =>
    simp only [entering]
    split
    · rename_i below hbelow
      obtain ⟨hpos, rfl⟩ := Array.getElem?_eq_some_iff.1 hbelow
      exact hf.old_reached hpos
    · rename_i hnone
      have hsize : f.size = 0 := by simpa using hnone
      rw [hsize]
      exact ⟨0, rfl, .start⟩
  | succ i =>
    have habove : f.getD i 0 = f[i] := by simp [Array.getD, show i < f.size by omega]
    have hnew := hf.new_reached (i := i) (by omega)
    simp only [entering, habove]
    split
    · rename_i below hbelow
      obtain ⟨hlt, rfl⟩ := Array.getElem?_eq_some_iff.1 hbelow
      split
      · exact hnew
      · exact hf.old_reached hlt
    · exact hnew

theorem old_le_entering (h : i < f.size) : f[i] + 1 ≤ f.entering i := by
  cases i with
  | zero => simp [entering, h]
  | succ i =>
    simp only [entering, Array.getElem?_eq_getElem h]
    split <;> omega

theorem new_le_entering (h : i < f.size) : f[i] ≤ f.entering (i + 1) := by
  have habove : f.getD i 0 = f[i] := by simp [Array.getD, h]
  simp only [entering, habove]
  split
  · split <;> omega
  · exact Nat.le_refl _

end Frontier

/-- Old lines passed when all equal lines from a point on are. -/
def passEqual (a b : Array String) (x y : Nat) : Nat :=
  if h : x < a.size ∧ y < b.size then
    if a[x] = b[y] then passEqual a b (x + 1) (y + 1) else x
  else x
termination_by a.size - x

section PassEqual

variable {a b : Array String} {d x y : Nat}

theorem le_passEqual : x ≤ passEqual a b x y := by
  fun_induction passEqual a b x y <;> omega

theorem Path.passEqual (p : Path a b d x y) :
    Path a b d (passEqual a b x y) (y + (passEqual a b x y - x)) := by
  fun_induction Diff.passEqual a b x y with
  | case1 x y h heq ih =>
    have hle : x + 1 ≤ Diff.passEqual a b (x + 1) (y + 1) := le_passEqual
    have q := ih (p.equal h.1 h.2 heq)
    rwa [show y + 1 + (Diff.passEqual a b (x + 1) (y + 1) - (x + 1)) =
      y + (Diff.passEqual a b (x + 1) (y + 1) - x) by omega] at q
  | case2 x y h hne => simpa using p
  | case3 x y h => simpa using p

theorem passEqual_stops {x' y' : Nat} (hx' : passEqual a b x y = x')
    (hy' : y' + x = y + x') (hx : x' < a.size) (hy : y' < b.size) : a[x'] ≠ b[y'] := by
  fun_induction passEqual a b x y with
  | case1 x y h heq ih => exact ih hx' (by omega)
  | case2 x y h hne =>
    subst hx'
    obtain rfl : y' = y := by omega
    exact hne
  | case3 x y h =>
    subst hx'
    obtain rfl : y' = y := by omega
    exact absurd ⟨hx, hy⟩ h

end PassEqual

/-- Equal lines passed on one diagonal, from one point to another. -/
structure Snake where
  oldStart : Nat
  newStart : Nat
  oldEnd : Nat
  newEnd : Nat

namespace Snake

/-- The snake after the next edit on the diagonal of entry `i`. -/
def next (a b : Array String) (f : Frontier) (i : Nat) : Snake :=
  let x := f.entering i
  let y := x + 2 * i - f.size
  let passed := passEqual a b x y
  ⟨x, y, passed, y + (passed - x)⟩

variable {a b : Array String} {f : Frontier} {i : Nat}

theorem next_start (hf : f.Furthest a b (f.size - 1)) (hi : i ≤ f.size) :
    (next a b f i).newStart + f.size = (next a b f i).oldStart + 2 * i ∧
      Path a b f.size (next a b f i).oldStart (next a b f i).newStart := by
  obtain ⟨y, hy, p⟩ := hf.entering_reached hi
  simp only [next]
  obtain rfl : y = f.entering i + 2 * i - f.size := by omega
  exact ⟨hy, p⟩

theorem next_end (hf : f.Furthest a b (f.size - 1)) (hi : i ≤ f.size) :
    (next a b f i).newEnd + f.size = (next a b f i).oldEnd + 2 * i ∧
      Path a b f.size (next a b f i).oldEnd (next a b f i).newEnd := by
  obtain ⟨hdiagonal, p⟩ := next_start hf hi
  have hle : f.entering i ≤ passEqual a b (f.entering i) (f.entering i + 2 * i - f.size) :=
    le_passEqual
  simp only [next] at hdiagonal p ⊢
  exact ⟨by omega, p.passEqual⟩

/-- No path with the same number of edits ends beyond the snake on its diagonal. -/
theorem le_next_end (hf : f.Furthest a b (f.size - 1)) (hi : i ≤ f.size) {d x y : Nat}
    (p : Path a b d x y) (hd : d = f.size) (hdiagonal : y + f.size = x + 2 * i) :
    x ≤ (next a b f i).oldEnd := by
  obtain ⟨hstart, -⟩ := next_start hf hi
  simp only [next] at hstart ⊢
  have hle : f.entering i ≤ passEqual a b (f.entering i) (f.entering i + 2 * i - f.size) :=
    le_passEqual
  induction p with
  | start => exact Nat.zero_le _
  | @old d x y p =>
    have hlt : i < f.size := by
      have hnew := p.new_le
      omega
    have hentry := (hf i hlt).2 x y (by rwa [← hd]) (by omega)
    have hentering := Frontier.old_le_entering hlt
    omega
  | @new d x y p =>
    have hpos : 0 < i := by
      have hold := p.old_le
      omega
    obtain ⟨i, rfl⟩ : ∃ j, i = j + 1 := ⟨i - 1, by omega⟩
    have hentry := (hf i (by omega)).2 x y (by rwa [← hd]) (by omega)
    have hentering := Frontier.new_le_entering (f := f) (i := i) (by omega)
    omega
  | @equal d x y hx hy heq p ih =>
    have hx' := ih hd (by omega)
    -- the snake does not end where one more pair of lines is equal
    by_cases hend : passEqual a b (f.entering i) (f.entering i + 2 * i - f.size) = x
    · exact absurd heq (passEqual_stops hend (by omega) hx hy)
    · omega

end Snake

/-- On the diagonal of an entry, what is passed from one end and what from the other make up a whole
text. -/
def overlaps (a b : Array String) (facing : Option Frontier) (d i passed : Nat) : Bool :=
  (facing.bind (·.reach? ((a.size : Int) - b.size - (d - 2 * i)))).any
    fun r => a.size ≤ passed + r

/-- One round from one end: the frontier for one more edit, or the first snake that reaches the
frontier from the other end, which is looked at only if `facing` is given. -/
def advance (a b : Array String) (facing : Option Frontier) (f : Frontier) (i : Nat)
    (reached : Frontier) : Snake ⊕ Frontier :=
  if f.size < i then .inr reached
  else
    let snake := Snake.next a b f i
    if overlaps a b facing f.size i snake.oldEnd then .inl snake
    else advance a b facing f (i + 1) (reached.push snake.oldEnd)
termination_by f.size + 1 - i

section Advance

variable {a b : Array String} {facing : Option Frontier} {f reached : Frontier} {i : Nat}

/-- No entry overlaps with the other end. -/
def Frontier.Clear (a b : Array String) (facing : Option Frontier) (d : Nat) (f : Frontier) :
    Prop :=
  ∀ i (h : i < f.size), overlaps a b facing d i f[i] = false

theorem Frontier.clear_empty {d : Nat} : Frontier.Clear a b facing d #[] := by
  intro i h
  simp at h

theorem advance_snake {snake : Snake} (h : advance a b facing f i reached = .inl snake) :
    ∃ j, j ≤ f.size ∧ snake = Snake.next a b f j ∧
      overlaps a b facing f.size j snake.oldEnd = true := by
  fun_induction advance a b facing f i reached with
  | case1 => contradiction
  | case2 i reached hi next hoverlaps =>
    obtain rfl : next = snake := by simpa using h
    exact ⟨i, by omega, rfl, hoverlaps⟩
  | case3 i reached hi next hclear ih => exact ih h

theorem advance_frontier {f' : Frontier} (hf : f.Furthest a b (f.size - 1))
    (hreached : reached.Furthest a b f.size) (hclear : reached.Clear a b facing f.size)
    (hsize : reached.size = i) (hi : i ≤ f.size + 1)
    (h : advance a b facing f i reached = .inr f') :
    f'.size = f.size + 1 ∧ f'.Furthest a b f.size ∧ f'.Clear a b facing f.size := by
  fun_induction advance a b facing f i reached with
  | case1 i reached hlt =>
    obtain rfl : reached = f' := by simpa using h
    exact ⟨by omega, hreached, hclear⟩
  | case2 => contradiction
  | case3 i reached hle next hnext ih =>
    have hi' : i ≤ f.size := by omega
    refine ih ?_ ?_ (by simpa using hsize) (by omega) h
    · intro j hj
      rw [Array.getElem_push]
      split
      · rename_i hlt
        exact hreached j hlt
      · obtain rfl : j = i := by simp at hj; omega
        exact ⟨⟨_, Snake.next_end hf hi'⟩, fun x y p hy => Snake.le_next_end hf hi' p rfl hy⟩
    · intro j hj
      rw [Array.getElem_push]
      split
      · rename_i hlt
        exact hclear j hlt
      · obtain rfl : j = i := by simp at hj; omega
        exact Bool.eq_false_iff.2 hnext

end Advance

end JsonLayout.Diff
