import JsonLayout.Json.Parser

/-!
# Runs of the reader

Runs over joined texts, and states in which a value is complete. After a number the reader cannot
know yet that the number has ended; it then behaves as the gap after the number does, on everything
that can follow a value.
-/

namespace JsonLayout.Json

open Text (byteLength)

namespace State

theorem run_cons {offset : Nat} {c : Char} {s : List Char} {state state' : State}
    (h : state.step offset c = .ok state') :
    state.run offset (c :: s) = state'.run (offset + c.utf8Size) s := by
  simp only [run, h]

theorem run_cons_ok {offset : Nat} {c : Char} {s : List Char} {state last : State}
    (h : state.run offset (c :: s) = .ok last) :
    ∃ state', state.step offset c = .ok state' ∧
      state'.run (offset + c.utf8Size) s = .ok last := by
  simp only [run] at h
  split at h
  · exact ⟨_, by assumption, h⟩
  · contradiction

theorem run_append {offset : Nat} {s t : List Char} {state state' : State}
    (h : state.run offset s = .ok state') :
    state.run offset (s ++ t) = state'.run (offset + byteLength s) t := by
  induction s generalizing offset state with
  | nil => cases h; simp [byteLength]
  | cons c s ih =>
    obtain ⟨next, hstep, hrun⟩ := run_cons_ok h
    rw [List.cons_append, run_cons hstep, ih hrun]
    simp [byteLength, Nat.add_assoc]

end State

/-- Characters that come right after a value: white space, a comma or a closing bracket. -/
def FollowsValue (c : Char) : Prop := isSpace c ∨ c = ',' ∨ c = ']' ∨ c = '}'

theorem isSpace_iff {c : Char} :
    isSpace c = true ↔ c = ' ' ∨ c = '\t' ∨ c = '\n' ∨ c = '\r' := by
  simp [isSpace, or_assoc]

/-- What follows a value never continues a number that may end. -/
theorem NumberPart.next_of_followsValue {offset : Nat} {c : Char} {part : NumberPart}
    (hpart : part.endError? = none) (hc : FollowsValue c) : part.next offset c = .complete := by
  have hc : c = ' ' ∨ c = '\t' ∨ c = '\n' ∨ c = '\r' ∨ c = ',' ∨ c = ']' ∨ c = '}' := by
    simpa only [FollowsValue, isSpace_iff, or_assoc] using hc
  rcases hc with rfl | rfl | rfl | rfl | rfl | rfl | rfl <;> cases part <;>
    first | rfl | contradiction

/-- A value has been read, and the gap after it comes next. -/
inductive State.Ends : State → Gap → Prop
  | gap (g : Gap) : Ends (.gap g) g
  | number (place : Context) (lexeme : List Char) {part : NumberPart}
      (h : part.endError? = none) : Ends (.number place lexeme part) (afterNumber place lexeme)

namespace State.Ends

theorem step {offset : Nat} {c : Char} {state : State} {g : Gap} (h : state.Ends g)
    (hc : FollowsValue c) : state.step offset c = g.step offset c := by
  cases h with
  | gap => rfl
  | number place lexeme hpart =>
    simp only [State.step, NumberPart.next_of_followsValue hpart hc]

theorem finish {state : State} {g : Gap} (h : state.Ends g) : state.finish = g.finish := by
  cases h with
  | gap => rfl
  | number place lexeme hpart => simp only [State.finish, hpart]

theorem run_space {offset : Nat} {w : List Char} {state : State} {g : Gap} (h : state.Ends g)
    (hw : ∀ c ∈ w, isSpace c) : ∃ state', state.run offset w = .ok state' ∧ state'.Ends g := by
  induction w generalizing offset state with
  | nil => exact ⟨state, rfl, h⟩
  | cons c w ih =>
    have hc : isSpace c := hw c (by simp)
    have hstep : state.step offset c = .ok (.gap g) := by
      rw [h.step (.inl hc)]
      simp [Gap.step, hc]
    rw [run_cons hstep]
    exact ih (.gap g) (fun d hd => hw d (by simp [hd]))

end State.Ends

namespace Context

@[simp] theorem fill_top {tree : Tree} : fill tree .top = .done tree := rfl

@[simp] theorem fill_array {tree : Tree} {start : Nat} {before : List Tree} {outer : Context} :
    fill tree (.array start before outer) = .itemEnd start (tree :: before) outer := rfl

@[simp] theorem fill_object {tree : Tree} {start : Nat} {before : List (String × Tree)}
    {key : String} {outer : Context} : fill tree (.object start before key outer) =
      .memberEnd start ((key, tree) :: before) outer := rfl

end Context

theorem Gap.run_space {offset : Nat} {w : List Char} {g : Gap} (hw : ∀ c ∈ w, isSpace c) :
    (State.gap g).run offset w = .ok (.gap g) := by
  induction w generalizing offset with
  | nil => rfl
  | cons c w ih =>
    have hstep : (State.gap g).step offset c = .ok (.gap g) := by
      simp [State.step, Gap.step, hw c (by simp)]
    rw [State.run_cons hstep]
    exact ih (fun d hd => hw d (by simp [hd]))

end JsonLayout.Json
