import JsonLayout.Proofs.Json.Agreement

/-!
# Why the reader stops

Every error that the reader gives, with the state and the character that it is given for: what the
reader refuses, and what a text that ends too early lacks.
-/

namespace JsonLayout.Json

/-- The surroundings are those of a place in which these brackets are open. -/
def Surroundings.Innermost (opened : List (Nat × Char)) : Surroundings → Prop
  | .document => opened = []
  | .array start => opened.head? = some (start, '[')
  | .object start => opened.head? = some (start, '{')
  | .literal _ | .number => True

theorem Context.innermost (place : Context) : place.surroundings.Innermost place.opened := by
  cases place <;> rfl

/-- What could come next in a state in which the reader can tell it in full. -/
inductive State.Expects : State → List Wanted → Prop
  | value (place : Context) : Expects (.gap (.value place)) [.value]
  | firstItem (start : Nat) (outer : Context) :
      Expects (.gap (.firstItem start outer)) [.value, .char ']']
  | itemEnd {state : State} {start : Nat} {before : List Tree} {outer : Context}
      (h : state.Ends (.itemEnd start before outer)) : Expects state [.char ',', .char ']']
  | firstKey (start : Nat) (outer : Context) :
      Expects (.gap (.key start [] outer)) [.key, .char '}']
  | nextKey (start : Nat) {before : List (String × Tree)} (outer : Context) (h : before ≠ []) :
      Expects (.gap (.key start before outer)) [.key]
  | colon (start : Nat) (before : List (String × Tree)) (key : String) (outer : Context) :
      Expects (.gap (.colon start before key outer)) [.char ':']
  | memberEnd {state : State} {start : Nat} {before : List (String × Tree)} {outer : Context}
      (h : state.Ends (.memberEnd start before outer)) : Expects state [.char ',', .char '}']
  | literal (place : Context) (word : Literal) (next : Char) (rest : List Char) :
      Expects (.literal place word next rest) [.char next]
  | minus (place : Context) (lexeme : List Char) : Expects (.number place lexeme .minus) [.digit]
  | point (place : Context) (lexeme : List Char) : Expects (.number place lexeme .point) [.digit]

/-- What is wrong with the character at `offset` in a state. -/
inductive State.Refuses (offset : Nat) (c : Char) : State → ParseError → Prop
  | unexpected {state : State} {wanted : List Wanted} {inside : Surroundings}
      (hwanted : state.Expects wanted) (h : inside.Innermost state.opened) :
      Refuses offset c state (.unexpected wanted inside offset c)
  | trailing {tree : Tree} : Refuses offset c (.gap (.done tree)) (.trailing offset c)
  | trailingNumber {lexeme : List Char} {part : NumberPart} :
      Refuses offset c (.number .top lexeme part) (.trailing offset c)
  | tooDeep {g : Gap} {place : Context} (hplace : g.Admits place) (hdepth : maxDepth ≤ place.depth)
      (hc : c = '[' ∨ c = '{') : Refuses offset c (.gap g) (.tooDeep offset)
  | controlCharacter {role : StringRole} {start : Nat} {lexeme : List Char} (hc : c.toNat < 0x20) :
      Refuses offset c (.string role start lexeme .plain) (.controlCharacter offset c)
  | badEscape {role : StringRole} {start backslash : Nat} {lexeme : List Char} :
      Refuses offset c (.string role start lexeme (.escape backslash)) (.badEscape offset c)
  | badHexDigit {role : StringRole} {start backslash more : Nat} {lexeme : List Char}
      (hc : ¬ HexDigit c) :
      Refuses offset c (.string role start lexeme (.hex backslash more))
        (.badHexDigit backslash offset c)
  | leadingZero {place : Context} {lexeme : List Char} {start : Nat} (hc : Digit c) :
      Refuses offset c (.number place lexeme (.zero start)) (.leadingZero start)
  | secondPoint {place : Context} {lexeme : List Char} (hc : c = '.') :
      Refuses offset c (.number place lexeme .fraction) (.secondPoint offset)
  | emptyExponent {place : Context} {lexeme : List Char} {start : Nat} (hc : ¬ Digit c)
      (hsign : c ≠ '+' ∧ c ≠ '-') :
      Refuses offset c (.number place lexeme (.exponent start)) (.emptyExponent start)
  | signedEmptyExponent {place : Context} {lexeme : List Char} {start : Nat} (hc : ¬ Digit c) :
      Refuses offset c (.number place lexeme (.exponentSign start)) (.emptyExponent start)
  | badExponent {place : Context} {lexeme : List Char} {part : NumberPart} :
      Refuses offset c (.number place lexeme part) (.badExponent offset c)

/-- What is missing at the end of a text. -/
inductive State.Lacks : State → ParseError → Prop
  | unexpectedEnd {state : State} {wanted : List Wanted} {inside : Surroundings}
      (hwanted : state.Expects wanted) (h : inside.Innermost state.opened) :
      Lacks state (.unexpectedEnd wanted inside)
  | unclosedString {role : StringRole} {start : Nat} {lexeme : List Char} {part : StringPart} :
      Lacks (.string role start lexeme part) (.unclosedString start)
  | emptyExponent {place : Context} {lexeme : List Char} {start : Nat} :
      Lacks (.number place lexeme (.exponent start)) (.emptyExponent start)
  | signedEmptyExponent {place : Context} {lexeme : List Char} {start : Nat} :
      Lacks (.number place lexeme (.exponentSign start)) (.emptyExponent start)

variable {offset : Nat} {c : Char} {state : State} {e : ParseError}

theorem Gap.Admits.refuses {wanted : List Wanted} {g : Gap} {place : Context}
    (hg : g.Admits place) (hwanted : (State.gap g).Expects wanted)
    (h : startValue wanted place offset c = .error e) : (State.gap g).Refuses offset c e := by
  unfold startValue at h
  split_ifs at h with harray hdepth hobject hdepth
  · cases h
    exact .tooDeep hg (Nat.not_lt.mp hdepth) (.inl harray)
  · cases h
    exact .tooDeep hg (Nat.not_lt.mp hdepth) (.inr hobject)
  · split at h
    · contradiction
    · cases h
      refine .unexpected hwanted ?_
      cases hg with
      | value => exact place.innermost
      | firstItem => rfl

theorem Gap.refuses {g : Gap} (h : g.step offset c = .error e) :
    (State.gap g).Refuses offset c e := by
  unfold Gap.step at h
  by_cases hspace : isSpace c = true
  · rw [if_pos hspace] at h
    contradiction
  rw [if_neg hspace] at h
  cases g with
  | value place => exact (Admits.value place).refuses (.value place) h
  | firstItem start outer =>
    simp only at h
    split_ifs at h
    exact (Admits.firstItem start outer).refuses (.firstItem start outer) h
  | itemEnd start before outer =>
    simp only at h
    split_ifs at h
    cases h
    exact .unexpected (.itemEnd (.gap _)) rfl
  | key start before outer =>
    simp only at h
    split_ifs at h with _ hempty <;> cases h
    · obtain rfl := List.isEmpty_iff.mp hempty
      exact .unexpected (.firstKey start outer) rfl
    · exact .unexpected (.nextKey start outer (mt List.isEmpty_iff.mpr hempty)) rfl
  | colon start before k outer =>
    simp only at h
    split_ifs at h
    cases h
    exact .unexpected (.colon start before k outer) rfl
  | memberEnd start before outer =>
    simp only at h
    split_ifs at h
    cases h
    exact .unexpected (.memberEnd (.gap _)) rfl
  | done tree =>
    cases h
    exact .trailing

theorem State.string_refuses {role : StringRole} {start : Nat} {lexeme : List Char}
    {part : StringPart} (h : stringStep role start lexeme offset c part = .error e) :
    (State.string role start lexeme part).Refuses offset c e := by
  cases part with
  | plain =>
    simp only [stringStep] at h
    split_ifs at h with _ _ hcontrol
    cases h
    exact .controlCharacter hcontrol
  | escape backslash =>
    simp only [stringStep] at h
    split_ifs at h
    cases h
    exact .badEscape
  | hex backslash more =>
    simp only [stringStep] at h
    split_ifs at h with hhex
    · cases more <;> contradiction
    · cases h
      exact .badHexDigit (mt hexDigit_iff.mp hhex)

theorem State.Expects.of_afterNumber {wanted : List Wanted} {place : Context} {lexeme : List Char}
    {part : NumberPart} (hpart : part.endError? = none)
    (h : (State.gap (afterNumber place lexeme)).Expects wanted) :
    (State.number place lexeme part).Expects wanted := by
  have hends := Ends.number place lexeme hpart
  cases place with
  | top =>
    cases h with
    | itemEnd h => cases h
    | memberEnd h => cases h
  | array =>
    cases h with
    | itemEnd h =>
      cases h
      exact .itemEnd hends
    | memberEnd h => cases h
  | object =>
    cases h with
    | itemEnd h => cases h
    | memberEnd h =>
      cases h
      exact .memberEnd hends

/-- After a number that may end, what is refused is what the gap behind it refuses. -/
theorem State.Refuses.of_afterNumber {place : Context} {lexeme : List Char} {part : NumberPart}
    (hpart : part.endError? = none)
    (h : (State.gap (afterNumber place lexeme)).Refuses offset c e) :
    (State.number place lexeme part).Refuses offset c e := by
  have hopened : (State.number place lexeme part).opened =
      (State.gap (afterNumber place lexeme)).opened := (place.opened_fill _).symm
  generalize hstate : State.gap (afterNumber place lexeme) = state at h hopened
  cases h with
  | unexpected hwanted h =>
    subst hstate
    exact .unexpected (hwanted.of_afterNumber hpart) (hopened.symm ▸ h)
  | trailing =>
    cases place with
    | top => exact .trailingNumber
    | array | object => cases hstate
  | tooDeep hplace =>
    cases hstate
    cases place <;> cases hplace
  | trailingNumber | controlCharacter | badEscape | badHexDigit | leadingZero | secondPoint
  | emptyExponent | signedEmptyExponent | badExponent => cases hstate

theorem NumberPart.next_wrong {place : Context} {lexeme : List Char} {part : NumberPart}
    (h : part.next offset c = .wrong e) : (State.number place lexeme part).Refuses offset c e := by
  have hafter : NumberPart.afterInteger offset c ≠ .wrong e := by
    unfold NumberPart.afterInteger
    split_ifs <;> simp
  have hdigit : ¬ c.isDigit = true → ¬ Digit c := mt digit_iff.mp
  cases part with
  | minus =>
    simp only [NumberPart.next] at h
    split_ifs at h
    cases h
    exact .unexpected (.minus place lexeme) trivial
  | zero start =>
    simp only [NumberPart.next] at h
    split_ifs at h with hc
    · cases h
      exact .leadingZero (digit_iff.mpr hc)
    · exact absurd h hafter
  | integer =>
    simp only [NumberPart.next] at h
    split_ifs at h
    exact absurd h hafter
  | point =>
    simp only [NumberPart.next] at h
    split_ifs at h
    cases h
    exact .unexpected (.point place lexeme) trivial
  | fraction =>
    simp only [NumberPart.next] at h
    split_ifs at h with _ hpoint
    cases h
    exact .secondPoint hpoint
  | exponent start =>
    simp only [NumberPart.next] at h
    split_ifs at h with hc hsign <;> cases h
    · exact .badExponent
    · exact .emptyExponent (hdigit hc) (by simpa using hsign)
  | exponentSign start =>
    simp only [NumberPart.next] at h
    split_ifs at h with hc <;> cases h
    · exact .badExponent
    · exact .signedEmptyExponent (hdigit hc)
  | exponentDigits =>
    simp only [NumberPart.next] at h
    split_ifs at h
    cases h
    exact .badExponent

theorem State.refuses_of_step (h : state.step offset c = .error e) :
    state.Refuses offset c e := by
  cases state with
  | gap g => exact Gap.refuses h
  | string role start lexeme part => exact string_refuses h
  | literal place word next rest =>
    simp only [State.step] at h
    split_ifs at h
    · cases rest <;> contradiction
    · cases h
      exact .unexpected (.literal place word next rest) trivial
  | number place lexeme part =>
    simp only [State.step] at h
    split at h
    · contradiction
    · rename_i cause hwrong
      cases h
      exact NumberPart.next_wrong hwrong
    · rename_i hcomplete
      exact (Gap.refuses h).of_afterNumber (NumberPart.endError?_of_complete hcomplete)

theorem Gap.lacks {g : Gap} (h : g.finish = .error e) : (State.gap g).Lacks e := by
  cases g with
  | value place =>
    cases h
    exact .unexpectedEnd (.value place) place.innermost
  | firstItem start outer =>
    cases h
    exact .unexpectedEnd (.firstItem start outer) rfl
  | itemEnd =>
    cases h
    exact .unexpectedEnd (.itemEnd (.gap _)) rfl
  | key start before outer =>
    cases h
    split_ifs with hempty
    · obtain rfl := List.isEmpty_iff.mp hempty
      exact .unexpectedEnd (.firstKey start outer) rfl
    · exact .unexpectedEnd (.nextKey start outer (mt List.isEmpty_iff.mpr hempty)) rfl
  | colon start before k outer =>
    cases h
    exact .unexpectedEnd (.colon start before k outer) rfl
  | memberEnd =>
    cases h
    exact .unexpectedEnd (.memberEnd (.gap _)) rfl
  | done => contradiction

theorem State.lacks_of_finish (h : state.finish = .error e) : state.Lacks e := by
  cases state with
  | gap g => exact Gap.lacks h
  | string =>
    cases h
    exact .unclosedString
  | literal place word next rest =>
    cases h
    exact .unexpectedEnd (.literal place word next rest) trivial
  | number place lexeme part =>
    simp only [State.finish] at h
    split at h
    · rename_i cause hend
      cases h
      cases part with
      | minus =>
        cases hend
        exact .unexpectedEnd (.minus place lexeme) trivial
      | point =>
        cases hend
        exact .unexpectedEnd (.point place lexeme) trivial
      | exponent =>
        cases hend
        exact .emptyExponent
      | exponentSign =>
        cases hend
        exact .signedEmptyExponent
      | zero | integer | fraction | exponentDigits => contradiction
    · rename_i hend
      have hends := Ends.number place lexeme hend
      cases place with
      | top => contradiction
      | array =>
        cases h
        exact .unexpectedEnd (.itemEnd hends) rfl
      | object =>
        cases h
        exact .unexpectedEnd (.memberEnd hends) rfl

/-! Where a whole text is refused. -/

theorem State.exists_step_of_run {s : List Char} (h : state.run offset s = .error e) :
    ∃ p c r last, s = p ++ c :: r ∧ state.run offset p = .ok last ∧
      last.step (offset + Text.byteLength p) c = .error e := by
  induction s generalizing offset state with
  | nil => cases h
  | cons c s ih =>
    simp only [State.run] at h
    split at h
    · rename_i next hstep
      obtain ⟨p, d, r, last, rfl, hrun, hlast⟩ := ih h
      refine ⟨c :: p, d, r, last, rfl, (run_cons hstep).trans hrun, ?_⟩
      rwa [Text.byteLength, ← Nat.add_assoc]
    · rename_i cause hstep
      cases h
      exact ⟨[], c, s, state, rfl, rfl, hstep⟩

/-- A text that is not read is refused at one of its characters, or at its end. -/
theorem Tree.parse_error_cases {s : List Char} (h : Tree.parse s = .error e) :
    (∃ p c r state, s = p ++ c :: r ∧ (State.gap (.value .top)).run 0 p = .ok state ∧
      state.step (Text.byteLength p) c = .error e) ∨
    ∃ state, (State.gap (.value .top)).run 0 s = .ok state ∧ state.finish = .error e := by
  unfold Tree.parse at h
  split at h
  · rename_i state hrun
    exact .inr ⟨state, hrun, h⟩
  · rename_i cause hrun
    cases h
    obtain ⟨p, c, r, state, rfl, hp, hstep⟩ := State.exists_step_of_run hrun
    rw [Nat.zero_add] at hstep
    exact .inl ⟨p, c, r, state, rfl, hp, hstep⟩

end JsonLayout.Json
