import JsonLayout.Proofs.Json.Completing
import JsonLayout.Proofs.Json.Refusal

/-!
# Errors stand at the first character that is wrong

What stands before the character at fault is the beginning of an accepted text, and no text that
goes on with that character is accepted, whatever comes after it.
-/

namespace JsonLayout.Json

open Text (byteLength charAt?)

/-- Where the character at fault stands, if the text has more wrong with it than its end. A leading
zero is wrong because of the digit after it, and an exponent without digits because of what comes
after its letter and sign, which may be nothing. -/
def ParseError.fault? (s : List Char) : ParseError → Option Nat
  | .unexpected _ _ offset _ | .trailing offset _ | .badEscape offset _ | .badHexDigit _ offset _
  | .controlCharacter offset _ | .secondPoint offset | .badExponent offset _ | .tooDeep offset
  | .notUtf8 offset => some offset
  | .leadingZero offset => some (offset + 1)
  | .emptyExponent offset =>
      if charAt? s (offset + 1) = some '+' ∨ charAt? s (offset + 1) = some '-' then
        some (offset + 2)
      else some (offset + 1)
  | .unexpectedEnd .. | .unclosedString _ => none

variable {s p r lexeme : List Char} {c : Char} {place : Context} {start : Nat} {state : State}
  {e : ParseError}

theorem ParseError.fault?_emptyExponent (hend : start + 1 = byteLength p)
    (hr : ∀ c, r.head? = some c → c ≠ '+' ∧ c ≠ '-') :
    (emptyExponent start).fault? (p ++ r) = some (byteLength p) := by
  rw [fault?, hend, Text.charAt?_length, if_neg]
  rintro (h | h)
  · exact (hr '+' h).1 rfl
  · exact (hr '-' h).2 rfl

theorem ParseError.fault?_signedEmptyExponent
    (hafter : (State.number place lexeme (.exponentSign start)).After p)
    (hagrees : (State.number place lexeme (.exponentSign start)).Agrees (scan p)) :
    (emptyExponent start).fault? (p ++ r) = some (byteLength p) := by
  obtain ⟨q, n, d, sign, -, -, hletter, hsign, rfl, hstart⟩ := hafter.exists_exponentSign hagrees
  have hd : byteLength [d] = 1 := by rcases hletter with rfl | rfl <;> rfl
  have hbefore : byteLength (q ++ n ++ [d]) = start + 1 := by
    rw [Text.byteLength_append, hstart, hd]
  have hsignAt : charAt? (q ++ n ++ [d, sign] ++ r) (start + 1) = some sign := by
    have hat := Text.charAt?_length (q ++ n ++ [d]) (sign :: r)
    rw [hbefore] at hat
    simpa using hat
  have hends : start + 2 = byteLength (q ++ n ++ [d, sign]) := by
    obtain ⟨-, -, hends⟩ := hagrees
    rwa [bytes_scan] at hends
  rw [fault?, hsignAt, if_pos (by simpa using hsign), hends]

namespace State

/-- What is refused is the character that comes next. -/
theorem fault?_of_refuses (hafter : state.After p) (hagrees : state.Agrees (scan p))
    (h : state.Refuses (byteLength p) c e) : e.fault? (p ++ c :: r) = some (byteLength p) := by
  cases h with
  | unexpected | trailing | trailingNumber | tooDeep | controlCharacter | badEscape | badHexDigit
  | secondPoint | badExponent => rfl
  | leadingZero =>
    obtain ⟨-, -, hends⟩ := hagrees
    rw [bytes_scan] at hends
    exact congrArg some hends
  | emptyExponent hc hsign =>
    obtain ⟨-, -, hends⟩ := hagrees
    rw [bytes_scan] at hends
    refine ParseError.fault?_emptyExponent hends fun d hd => ?_
    obtain rfl := Option.some.inj hd
    exact hsign
  | signedEmptyExponent => exact ParseError.fault?_signedEmptyExponent hafter hagrees

theorem fault?_of_lacks (hafter : state.After p) (hagrees : state.Agrees (scan p))
    (h : state.Lacks e) : e.fault? p = none ∨ e.fault? p = some (byteLength p) := by
  cases h with
  | unexpectedEnd | unclosedString => exact .inl rfl
  | emptyExponent =>
    obtain ⟨-, -, hends⟩ := hagrees
    rw [bytes_scan] at hends
    have hfault := ParseError.fault?_emptyExponent (r := []) hends (by simp)
    rw [List.append_nil] at hfault
    exact .inr hfault
  | signedEmptyExponent =>
    have hfault := ParseError.fault?_signedEmptyExponent (r := []) hafter hagrees
    rw [List.append_nil] at hfault
    exact .inr hfault

end State

/-- A text that goes on in the same way is refused for the same reason. -/
theorem Tree.parse_of_step (hrun : (State.gap (.value .top)).run 0 p = .ok state)
    (hstep : state.step (byteLength p) c = .error e) (t : List Char) :
    Tree.parse (p ++ c :: t) = .error e := by
  have hstop : state.run (0 + byteLength p) (c :: t) = .error e := by
    rw [Nat.zero_add, State.run, hstep]
  rw [Tree.parse, State.run_append hrun, hstop]

/-- Every error is reported at the first character that is wrong: up to there the text can be
completed to an accepted one, and with that character it cannot, and gives the same error whatever
follows. If the text as a whole is only too short, all of it can be completed. -/
theorem parse_error_at_first_fault (h : Tree.parse s = .error e) :
    (∀ j, e.fault? s = some j →
      ∃ p r, s = p ++ r ∧ byteLength p = j ∧ Completable p ∧
        ∀ c rest, r = c :: rest → ∀ t, Tree.parse (p ++ c :: t) = .error e) ∧
    (e.fault? s = none → Completable s) := by
  rcases Tree.parse_error_cases h with ⟨p, c, r, state, rfl, hrun, hstep⟩ | ⟨state, hrun, hfinish⟩
  · have hafter := State.after_of_run hrun
    have hfault : e.fault? (p ++ c :: r) = some (byteLength p) :=
      State.fault?_of_refuses hafter (State.agrees_of_run hrun) (State.refuses_of_step hstep)
    rw [hfault]
    refine ⟨?_, by simp⟩
    rintro j ⟨⟩
    refine ⟨p, c :: r, rfl, rfl, hafter.completable, ?_⟩
    rintro d rest ⟨⟩ t
    exact Tree.parse_of_step hrun hstep t
  · have hafter := State.after_of_run hrun
    refine ⟨?_, fun _ => hafter.completable⟩
    intro j hj
    rcases State.fault?_of_lacks hafter (State.agrees_of_run hrun)
      (State.lacks_of_finish hfinish) with hnone | hsome
    · rw [hnone] at hj
      cases hj
    · rw [hsome] at hj
      cases hj
      exact ⟨s, [], by simp, rfl, hafter.completable, by simp⟩

theorem parse_error_at_first_fault_exponent :
    let s := "[1e+]".toList
    let e := ParseError.emptyExponent 2
    Tree.parse s = .error e ∧ e.fault? s = some 4 ∧
      ∃ p r, s = p ++ r ∧ byteLength p = 4 ∧ Completable p ∧
        ∀ c rest, r = c :: rest → ∀ t, Tree.parse (p ++ c :: t) = .error e := by
  intro s e
  have h : Tree.parse s = .error e := by
    unfold s e
    rfl
  have hfault : e.fault? s = some 4 := by
    unfold s e
    rfl
  exact ⟨h, hfault, (parse_error_at_first_fault h).1 4 hfault⟩

end JsonLayout.Json
