import JsonLayout.Proofs.Diff.Script

/-!
# Recorded places

An edit records where it stands in both texts. Dividing the texts records every place as it is. When
the script is tidied, only the place in the text that an edit has no lines of can go out of date: an
edit that has lines in a text always records where they start there.
-/

namespace JsonLayout.Diff

/-- Of something that there is for either text, the one for the text without the lines of a kind. -/
def side {α : Type} (absent : EditKind) (old new : α) : α := if absent = .added then old else new

@[simp] theorem side_added {α : Type} (old new : α) : side .added old new = old := rfl

@[simp] theorem side_removed {α : Type} (old new : α) : side .removed old new = new := rfl

@[simp] theorem side_self {α : Type} (absent : EditKind) (x : α) : side absent x x = x :=
  ite_self x

theorem added_or_removed {kind : EditKind} (h : kind ≠ .kept) :
    kind = .added ∨ kind = .removed := by
  cases kind <;> simp_all

/-- The recorded place in the text that lacks the lines of one kind. -/
def Edit.place (absent : EditKind) (e : Edit) : Nat := side absent e.old e.new

namespace Script

theorem without_eq_nil {absent : EditKind} {s : Script} (h : ∀ e ∈ s, e.kind = absent) :
    s.without absent = [] :=
  List.flatMap_eq_nil_iff.2 fun e he => if_pos (h e he)

/-- From line `i` of a text on, every edit of a kind that counts records where it stands. -/
def PlacedFrom (absent : EditKind) (counts : EditKind → Prop) : Nat → Script → Prop
  | _, [] => True
  | i, e :: s =>
      (counts e.kind → e.place absent = i) ∧
        PlacedFrom absent counts (i + (e.without absent).length) s

section Placed

variable {absent : EditKind} {counts : EditKind → Prop} {i : Nat}

@[simp] theorem placedFrom_nil : PlacedFrom absent counts i [] := trivial

@[simp] theorem placedFrom_cons {e : Edit} {s : Script} : PlacedFrom absent counts i (e :: s) ↔
    (counts e.kind → e.place absent = i) ∧
      PlacedFrom absent counts (i + (e.without absent).length) s := Iff.rfl

theorem placedFrom_append {s t : Script} : PlacedFrom absent counts i (s ++ t) ↔
    PlacedFrom absent counts i s ∧
      PlacedFrom absent counts (i + (s.without absent).length) t := by
  induction s generalizing i with
  | nil => simp
  | cons e s ih => simp [ih, and_assoc, Nat.add_assoc]

theorem placedFrom_single {kind : EditKind} {lines : List String} {old new : Nat}
    (h : side absent old new = i) :
    PlacedFrom absent counts i (single kind lines old new) := by
  unfold single
  split
  · exact placedFrom_nil
  · exact ⟨fun _ => h, trivial⟩

theorem PlacedFrom.mono {counts' : EditKind → Prop} {s : Script}
    (h : PlacedFrom absent counts i s) (hmono : ∀ kind, counts' kind → counts kind) :
    PlacedFrom absent counts' i s := by
  induction s generalizing i with
  | nil => exact placedFrom_nil
  | cons e s ih => exact ⟨fun hcounts => h.1 (hmono _ hcounts), ih h.2⟩

theorem PlacedFrom.of_eq {j : Nat} {s : Script} (h : PlacedFrom absent counts i s) (hij : i = j) :
    PlacedFrom absent counts j s := hij ▸ h

/-- Every place is recorded as it is. -/
abbrev Exact (absent : EditKind) (i : Nat) (s : Script) : Prop :=
  PlacedFrom absent (fun _ => True) i s

/-- The places in the text that an edit has lines of are recorded as they are. -/
abbrev Placed (absent : EditKind) (i : Nat) (s : Script) : Prop :=
  PlacedFrom absent (· ≠ absent) i s

theorem Turns.without_eq {s : Script} {a b : List String} (h : s.Turns a b)
    (habsent : absent ≠ .kept) : s.without absent = side absent a b := by
  obtain rfl | rfl := added_or_removed habsent
  · exact h.old
  · exact h.new

end Placed

end Script

/-- What the script of two texts records, for either of the texts. -/
theorem script_exact {absent : EditKind} (habsent : absent ≠ .kept) (old new : Nat)
    (a b : List String) : (script old new a b).Exact absent (side absent old new) := by
  fun_induction script old new a b with
  | case1 old new a b f old' new' middle ihfirst ihsecond =>
    have hmiddle : middle.Exact absent (side absent old' new') ∧
        middle.without absent = side absent f.left f.right := by
      unfold middle
      split
      · rename_i hright
        rw [hright]
        exact ⟨Script.placedFrom_single rfl,
          (Script.turns_single .removed _ _ _).without_eq habsent⟩
      · split
        · rename_i hleft
          rw [hleft]
          exact ⟨Script.placedFrom_single rfl,
            (Script.turns_single .added _ _ _).without_eq habsent⟩
        · split
          rename_i x y hdivides _
          have hfirst := (script_turns old' new' (f.left.take x) (f.right.take y)).without_eq habsent
          have hsecond := (script_turns (old' + x) (new' + y) (f.left.drop x)
            (f.right.drop y)).without_eq habsent
          have hplace := ihsecond x y hdivides
          obtain ⟨hx, hy, -, -⟩ := id hdivides
          simp only [List.size_toArray] at hx hy
          rw [Script.Exact, Script.placedFrom_append, Script.without_append, hfirst, hsecond]
          refine ⟨⟨ihfirst x y hdivides, ?_⟩, ?_⟩
          · obtain rfl | rfl := added_or_removed habsent <;> simpa [hx, hy] using hplace
          · obtain rfl | rfl := added_or_removed habsent <;> simp
    obtain ⟨hplaces, hlines⟩ := hmiddle
    rw [List.append_assoc, Script.Exact, Script.placedFrom_append, Script.placedFrom_append, hlines,
      Script.without_single, if_neg habsent.symm]
    refine ⟨Script.placedFrom_single rfl, ?_, Script.placedFrom_single ?_⟩
    · obtain rfl | rfl := added_or_removed habsent <;> exact hplaces
    · obtain rfl | rfl := added_or_removed habsent <;> rfl

namespace Focus

variable {absent : EditKind} {i : Nat}

theorem placed_keepAfter (habsent : absent ≠ .kept) {lines : List String} {old new : Nat}
    {s : Script} (hplace : side absent old new = i) (h : s.Placed absent (i + lines.length)) :
    (keepAfter lines old new s).Placed absent i := by
  cases s with
  | nil => exact ⟨fun _ => hplace, trivial⟩
  | cons e s =>
    by_cases he : e.kind = .kept
    · obtain ⟨hrecorded, hrest⟩ := h
      have hrecorded := hrecorded (by simpa [he] using habsent.symm)
      obtain rfl | rfl := added_or_removed habsent <;>
        simp_all [keepAfter, Edit.place, Edit.without, Nat.add_assoc]
    · simp only [keepAfter, he, if_false]
      exact ⟨fun _ => hplace, by simpa [Edit.without, habsent.symm] using h⟩

theorem placed_reverse_keepBefore {lines : List String} {old new : Nat} {s : Script}
    (h : Script.Placed absent i s.reverse)
    (hplace : side absent old new = i + (Script.without absent s.reverse).length) :
    Script.Placed absent i (keepBefore lines old new s).reverse := by
  cases s with
  | nil => exact ⟨fun _ => hplace, trivial⟩
  | cons e s =>
    by_cases he : e.kind = .kept
    · simpa [keepBefore, he, Script.Placed, Script.placedFrom_append, Edit.place] using h
    · have hnew : keepBefore lines old new (e :: s) = ⟨.kept, lines, old, new⟩ :: e :: s := by
        simp [keepBefore, he]
      rw [hnew, List.reverse_cons, Script.Placed, Script.placedFrom_append]
      exact ⟨h, fun _ => hplace, trivial⟩

theorem placed_push {e : Edit} {s : Script} (h : Script.Placed absent i (e :: s)) :
    Script.Placed absent i (Script.push e s) := by
  unfold Script.push
  split
  · rename_i hempty
    simpa [Edit.without, List.isEmpty_iff.1 hempty] using h.2
  · exact h

/-- Of a removal and an addition, one has no lines in the text. -/
theorem placed_swap {q t : Edit} {s : Script} (habsent : absent ≠ .kept) (hq : q.kind ≠ .kept)
    (ht : t.kind ≠ .kept) (hne : q.kind ≠ t.kind) (h : Script.Placed absent i (q :: t :: s)) :
    Script.Placed absent i (t :: q :: s) := by
  obtain ⟨hqplace, htplace, hrest⟩ := h
  have hone : q.kind = absent ∨ t.kind = absent := by
    rcases added_or_removed hq with h | h <;> rcases added_or_removed ht with h' | h' <;>
      rcases added_or_removed habsent with rfl | rfl <;> simp_all
  rcases hone with h | h <;>
    simp_all [Script.Placed, Edit.without]

/-- A move brings every place that counts up to date. -/
theorem Step.placed {f g : Focus} (h : Step f g) (habsent : absent ≠ .kept)
    (hkind : f.edit.kind ≠ .kept) (hf : f.toScript.Placed absent i) :
    g.toScript.Placed absent i := by
  simp only [Script.Placed, toScript, Script.placedFrom_append, Script.placedFrom_cons] at hf ⊢
  cases h with
  | @slideUp q t before after left moved rest hq ht hmoved hleft hrest =>
    simp only [List.reverse_cons, Script.placedFrom_append, Script.placedFrom_cons,
      Script.without_append, Script.without_reverse_push, List.length_append] at hf ⊢
    obtain ⟨⟨hbefore, hqplace, -⟩, htplace, hafter⟩ := hf
    rw [Script.push_eq, List.reverse_append, Script.single_reverse, Script.placedFrom_append]
    refine ⟨⟨hbefore, Script.placedFrom_single (hqplace (by simpa [hq] using habsent.symm))⟩, ?_,
      placed_keepAfter habsent ?_ (hafter.of_eq ?_)⟩
    all_goals
      obtain rfl | rfl := added_or_removed habsent <;>
        simp_all [Edit.place, Edit.without]
    all_goals omega
  | @slideDown q t before after left moved rest hq ht hmoved hleft hrest =>
    simp only [Script.placedFrom_cons, without_reverse_keepBefore habsent,
      List.length_append] at hf ⊢
    obtain ⟨hbefore, htplace, hqplace, hafter⟩ := hf
    refine ⟨placed_reverse_keepBefore hbefore ?_, ?_, placed_push ⟨?_, hafter.of_eq ?_⟩⟩
    all_goals
      obtain rfl | rfl := added_or_removed habsent <;>
        simp_all [Edit.place, Edit.without]
    all_goals omega
  | skipUp hq hempty =>
    obtain ⟨hbefore, hafter⟩ := hf
    simp only [List.reverse_cons, Script.placedFrom_append] at hbefore
    exact ⟨hbefore.1, by simpa [Edit.without, hempty] using hafter⟩
  | skipDown hq hempty =>
    obtain ⟨hbefore, htplace, -, hafter⟩ := hf
    exact ⟨hbefore, htplace, by simpa [Edit.without, hempty] using hafter⟩
  | joinUp hq hsame =>
    obtain ⟨hbefore, -, hafter⟩ := hf
    simp only [List.reverse_cons, Script.placedFrom_append] at hbefore
    refine ⟨hbefore.1, hbefore.2.1, hafter.of_eq ?_⟩
    simp [Edit.without, hsame]
    split <;> simp [Nat.add_assoc]
  | joinDown hq hsame =>
    obtain ⟨hbefore, htplace, -, hafter⟩ := hf
    refine ⟨hbefore, htplace, hafter.of_eq ?_⟩
    simp [Edit.without, hsame]
    split <;> simp [Nat.add_assoc]
  | swapUp hq hne =>
    obtain ⟨hbefore, hafter⟩ := hf
    simp only [List.reverse_cons, Script.placedFrom_append, Script.without_append] at hbefore hafter
    refine ⟨hbefore.1, placed_swap habsent hq hkind hne ⟨hbefore.2.1, ?_⟩⟩
    simpa [Nat.add_assoc] using hafter
  | swapDown hq hne =>
    obtain ⟨hbefore, hafter⟩ := hf
    have hswapped := placed_swap habsent hkind hq hne.symm hafter
    simp only [List.reverse_cons, Script.placedFrom_append, Script.without_append]
    refine ⟨⟨hbefore, hswapped.1, trivial⟩, ?_⟩
    simpa [Nat.add_assoc] using hswapped.2

end Focus

end JsonLayout.Diff
