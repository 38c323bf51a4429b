import JsonLayout.Proofs.Json.Grammar
import JsonLayout.Proofs.Json.Reading

/-!
# Reading the scalars of the grammar

Where a value may start, the reader takes every literal, number and string of the grammar to its
end. A number is taken part by part.
-/

namespace JsonLayout.Json

theorem digit_iff {c : Char} : Digit c ↔ c.isDigit = true := by
  simp [Digit, Char.isDigit, Char.le_def]

theorem hexDigit_iff {c : Char} : HexDigit c ↔ isHexDigit c = true := by
  simp [HexDigit, isHexDigit, digit_iff, or_assoc, or_comm (a := 'a' ≤ c ∧ c ≤ 'f')]

theorem ws_iff {w : List Char} : Ws w ↔ ∀ c ∈ w, isSpace c = true := by
  simp only [Ws, isSpace_iff]

theorem isDigit_of_nonzero {c : Char} (h : '1' ≤ c ∧ c ≤ '9') : c.isDigit = true ∧ c ≠ '0' := by
  refine ⟨digit_iff.mp ⟨Char.le_trans (by decide) h.1, h.2⟩, ?_⟩
  rintro rfl
  exact absurd h.1 (by decide)

/-- Nothing but the first digit tells a number from other characters. -/
theorem ne_of_isDigit {c d : Char} (hc : c.isDigit = true) (hd : d.isDigit = false) : c ≠ d := by
  rintro rfl
  simp [hc] at hd

/-- A value may start in the gap; it stands in the given place. -/
inductive Gap.Admits : Gap → Context → Prop
  | value (place : Context) : Admits (.value place) place
  | firstItem (start : Nat) (outer : Context) : Admits (.firstItem start outer) (.array start [] outer)

theorem startValue_wanted {wanted wanted' : List Wanted} {place : Context} {offset : Nat} {c : Char}
    {state : State} (h : startValue wanted place offset c = .ok state) :
    startValue wanted' place offset c = .ok state := by
  unfold startValue at h ⊢
  split_ifs at h ⊢ <;> try assumption
  split at h
  · exact h
  · contradiction

theorem Gap.Admits.step {offset : Nat} {c : Char} {g : Gap} {place : Context} {state : State}
    (hg : g.Admits place) (hc : isSpace c = false)
    (h : startValue [] place offset c = .ok state) :
    (State.gap g).step offset c = .ok state := by
  cases hg with
  | value => simpa [State.step, Gap.step, hc] using startValue_wanted h
  | firstItem start outer =>
    have hclose : c ≠ ']' := by
      rintro rfl
      simp [startValue, NumberPart.start?] at h
    simpa [State.step, Gap.step, hc, hclose] using startValue_wanted h

/-! Numbers. -/

namespace NumberPart

/-- Every digit takes a number from the one part to the other. -/
def DigitLeads (part part' : NumberPart) : Prop :=
  ∀ offset c, c.isDigit = true → part.next offset c = .more part'

theorem digitLeads_integer : DigitLeads .integer .integer := by
  simp +contextual [DigitLeads, next]

theorem digitLeads_point : DigitLeads .point .fraction := by
  simp +contextual [DigitLeads, next]

theorem digitLeads_fraction : DigitLeads .fraction .fraction := by
  simp +contextual [DigitLeads, next]

theorem digitLeads_exponent (start : Nat) : DigitLeads (.exponent start) .exponentDigits := by
  simp +contextual [DigitLeads, next]

theorem digitLeads_exponentSign (start : Nat) :
    DigitLeads (.exponentSign start) .exponentDigits := by
  simp +contextual [DigitLeads, next]

theorem digitLeads_exponentDigits : DigitLeads .exponentDigits .exponentDigits := by
  simp +contextual [DigitLeads, next]

/-- Parts of a number that has all its integer digits and nothing else. -/
inductive Whole : NumberPart → Prop
  | zero (offset : Nat) : Whole (.zero offset)
  | integer : Whole .integer

/-- Parts after which an exponent may come. -/
inductive Mantissa : NumberPart → Prop
  | whole {part : NumberPart} (h : part.Whole) : Mantissa part
  | fraction : Mantissa .fraction

theorem Mantissa.endError? {part : NumberPart} (h : part.Mantissa) : part.endError? = none := by
  rcases h with ⟨⟨⟩⟩ | _ <;> rfl

theorem Whole.next_point {offset : Nat} {part : NumberPart} (h : part.Whole) :
    part.next offset '.' = .more .point := by
  cases h <;> rfl

theorem Mantissa.next_mark {offset : Nat} {c : Char} {part : NumberPart} (h : part.Mantissa)
    (hc : c = 'e' ∨ c = 'E') : part.next offset c = .more (.exponent offset) := by
  rcases hc with rfl | rfl <;> rcases h with ⟨⟨⟩⟩ | _ <;> rfl

theorem start?_of_isDigit {offset : Nat} {c : Char} (h : c.isDigit = true) (h0 : c ≠ '0') :
    start? offset c = some .integer := by
  have hminus : c ≠ '-' := ne_of_isDigit h (by decide)
  simp [start?, h, h0, hminus]

end NumberPart

namespace State

theorem step_number {offset : Nat} {c : Char} {place : Context} {lexeme : List Char}
    {part part' : NumberPart} (h : part.next offset c = .more part') :
    (State.number place lexeme part).step offset c = .ok (.number place (c :: lexeme) part') := by
  simp only [step, h]

theorem run_digits {offset : Nat} {place : Context} {lexeme ds : List Char} {part : NumberPart}
    (h : part.DigitLeads part) (hds : ∀ d ∈ ds, Digit d) :
    (State.number place lexeme part).run offset ds =
      .ok (.number place (ds.reverse ++ lexeme) part) := by
  induction ds generalizing offset lexeme with
  | nil => rfl
  | cons d ds ih =>
    have hd : d.isDigit = true := digit_iff.mp (hds d (by simp))
    rw [run_cons (step_number (h _ _ hd)), ih (fun d hd => hds d (by simp [hd]))]
    simp

theorem run_digits_of_start {offset : Nat} {place : Context} {lexeme ds : List Char}
    {part part' : NumberPart} (hstart : part.DigitLeads part') (h : part'.DigitLeads part')
    (hds : Digits ds) :
    (State.number place lexeme part).run offset ds =
      .ok (.number place (ds.reverse ++ lexeme) part') := by
  obtain ⟨hne, hall⟩ := hds
  cases ds with
  | nil => contradiction
  | cons d ds =>
    have hd : d.isDigit = true := digit_iff.mp (hall d (by simp))
    rw [run_cons (step_number (hstart _ _ hd)), run_digits h (fun d hd => hall d (by simp [hd]))]
    simp

theorem run_integer {offset : Nat} {place : Context} {lexeme int : List Char}
    (h : Integer int) : ∃ part, (State.number place lexeme .minus).run offset int =
      .ok (.number place (int.reverse ++ lexeme) part) ∧ part.Whole := by
  cases h with
  | zero => exact ⟨.zero offset, rfl, .zero offset⟩
  | @positive c ds first rest =>
    obtain ⟨hc, h0⟩ := isDigit_of_nonzero first
    have hnext : NumberPart.next offset c .minus = .more .integer := by
      simp [NumberPart.next, hc, h0]
    refine ⟨.integer, ?_, .integer⟩
    rw [run_cons (step_number hnext), run_digits NumberPart.digitLeads_integer rest]
    simp

theorem run_fraction {offset : Nat} {place : Context} {lexeme frac : List Char}
    {part : NumberPart} (hp : part.Whole) (h : Fraction frac) :
    ∃ part', (State.number place lexeme part).run offset frac =
      .ok (.number place (frac.reverse ++ lexeme) part') ∧ part'.Mantissa := by
  cases h with
  | none => exact ⟨part, rfl, .whole hp⟩
  | point digits =>
    refine ⟨.fraction, ?_, .fraction⟩
    rw [run_cons (step_number hp.next_point), run_digits_of_start NumberPart.digitLeads_point
      NumberPart.digitLeads_fraction digits]
    simp

theorem run_exponent {offset : Nat} {place : Context} {lexeme exp : List Char}
    {part : NumberPart} (hp : part.Mantissa) (h : Exponent exp) :
    ∃ part', (State.number place lexeme part).run offset exp =
      .ok (.number place (exp.reverse ++ lexeme) part') ∧ part'.endError? = none := by
  cases h with
  | none => exact ⟨part, rfl, hp.endError?⟩
  | @mark e sign ds letter signs digits =>
    refine ⟨.exponentDigits, ?_, rfl⟩
    rw [run_cons (step_number (hp.next_mark letter))]
    rcases signs with rfl | rfl | rfl
    · rw [List.nil_append, run_digits_of_start (NumberPart.digitLeads_exponent offset)
        NumberPart.digitLeads_exponentDigits digits]
      simp
    all_goals
      rw [List.singleton_append, run_cons (step_number rfl), run_digits_of_start
        (NumberPart.digitLeads_exponentSign offset) NumberPart.digitLeads_exponentDigits digits]
      simp

end State

theorem startValue_number {wanted : List Wanted} {place : Context} {offset : Nat} {c : Char}
    {part : NumberPart} (h : NumberPart.start? offset c = some part) :
    startValue wanted place offset c = .ok (.number place [c] part) := by
  have hne : ∀ d ∈ ['[', '{', '"', 'n', 't', 'f'], c ≠ d := by
    rintro d hd rfl
    simp only [List.mem_cons, List.not_mem_nil, or_false] at hd
    rcases hd with rfl | rfl | rfl | rfl | rfl | rfl <;> simp [NumberPart.start?] at h
  simp only [List.forall_mem_cons] at hne
  simp [startValue, h, hne]

theorem NumberPart.isSpace_of_start? {offset : Nat} {c : Char} {part : NumberPart}
    (h : start? offset c = some part) : isSpace c = false := by
  rw [Bool.eq_false_iff, Ne, isSpace_iff]
  rintro (rfl | rfl | rfl | rfl) <;> simp [start?] at h

namespace Gap.Admits

variable {offset : Nat} {g : Gap} {place : Context}

theorem step_number {c : Char} {part : NumberPart} (hg : g.Admits place)
    (h : NumberPart.start? offset c = some part) :
    (State.gap g).step offset c = .ok (.number place [c] part) :=
  hg.step (NumberPart.isSpace_of_start? h) (startValue_number h)

theorem run_integer {int : List Char} (hg : g.Admits place) (h : Integer int) :
    ∃ part, (State.gap g).run offset int = .ok (.number place int.reverse part) ∧
      part.Whole := by
  cases h with
  | zero => exact ⟨.zero offset, State.run_cons (hg.step_number rfl), .zero offset⟩
  | @positive c ds first rest =>
    obtain ⟨hc, h0⟩ := isDigit_of_nonzero first
    refine ⟨.integer, ?_, .integer⟩
    rw [State.run_cons (hg.step_number (NumberPart.start?_of_isDigit hc h0)),
      State.run_digits NumberPart.digitLeads_integer rest]
    simp

theorem run_signed {minus int : List Char} (hg : g.Admits place) (offset : Nat)
    (hm : minus = [] ∨ minus = ['-']) (h : Integer int) :
    ∃ part, (State.gap g).run offset (minus ++ int) =
      .ok (.number place (minus ++ int).reverse part) ∧ part.Whole := by
  rcases hm with rfl | rfl
  · exact hg.run_integer h
  · rw [List.singleton_append, State.run_cons (hg.step_number rfl)]
    simpa using State.run_integer h

/-- A whole number leads into a part in which it may end. -/
theorem run_number {s : List Char} (hg : g.Admits place) (offset : Nat) (h : Number s) :
    ∃ part, (State.gap g).run offset s = .ok (.number place s.reverse part) ∧
      part.endError? = none := by
  obtain ⟨sign, integer, fraction, exponent⟩ := h
  obtain ⟨part, hint, hwhole⟩ := hg.run_signed offset sign integer
  obtain ⟨part', hfrac, hmant⟩ := State.run_fraction hwhole fraction
  obtain ⟨last, hexp, hend⟩ := State.run_exponent hmant exponent
  refine ⟨last, ?_, hend⟩
  have hmantissa := (State.run_append hint).trans hfrac
  rw [State.run_append hmantissa, hexp]
  simp

end Gap.Admits

/-! Strings. -/

theorem isShortEscape_of_mem {c : Char} (h : c ∈ ['"', '\\', '/', 'b', 'f', 'n', 'r', 't']) :
    isShortEscape c = true := by
  simpa [isShortEscape, or_assoc] using h

namespace State

variable {offset : Nat} {role : StringRole} {start : Nat} {lexeme : List Char}

theorem step_hexDigit {c : Char} {backslash more : Nat} (h : HexDigit c) :
    (State.string role start lexeme (.hex backslash (more + 1))).step offset c =
      .ok (.string role start (c :: lexeme) (.hex backslash more)) := by
  simp [step, stringStep, hexDigit_iff.mp h]

theorem step_lastHexDigit {c : Char} {backslash : Nat} (h : HexDigit c) :
    (State.string role start lexeme (.hex backslash 0)).step offset c =
      .ok (.string role start (c :: lexeme) .plain) := by
  simp [step, stringStep, hexDigit_iff.mp h]

theorem run_letter {l : List Char} (h : Letter l) :
    (State.string role start lexeme .plain).run offset l =
      .ok (.string role start (l.reverse ++ lexeme) .plain) := by
  cases h with
  | @plain c printable quote backslash =>
    have hc : ¬ c.toNat < 0x20 := by omega
    have hstep : (State.string role start lexeme .plain).step offset c =
        .ok (.string role start (c :: lexeme) .plain) := by
      simp [step, stringStep, quote, backslash, hc]
    rw [run_cons hstep]
    rfl
  | @escape c h =>
    have hstep : (State.string role start ('\\' :: lexeme) (.escape offset)).step (offset + 1) c =
        .ok (.string role start (c :: '\\' :: lexeme) .plain) := by
      simp [step, stringStep, isShortEscape_of_mem h]
    rw [run_cons rfl]
    exact run_cons hstep
  | codePoint ha hb hc hd =>
    rw [run_cons rfl, run_cons rfl, run_cons (step_hexDigit ha), run_cons (step_hexDigit hb),
      run_cons (step_hexDigit hc), run_cons (step_lastHexDigit hd)]
    rfl

theorem run_letters {s : List Char} (h : Letters s) :
    (State.string role start lexeme .plain).run offset s =
      .ok (.string role start (s.reverse ++ lexeme) .plain) := by
  induction h with
  | nil => rfl
  | snoc before last ih =>
    rw [run_append ih, run_letter last]
    simp

end State

/-- A string, from the place where it may start to the gap after it. -/
theorem State.run_quoted {offset : Nat} {state : State} {role : StringRole} {s : List Char}
    (hstart : ∀ offset, state.step offset '"' = .ok (.string role offset ['"'] .plain))
    (h : Quoted s) : state.run offset s = .ok (.gap (role.fill (String.ofList s))) := by
  obtain ⟨letters⟩ := h
  rw [List.cons_append, run_cons (hstart offset), run_append (run_letters letters),
    run_cons rfl]
  simp [run]

namespace Gap.Admits

variable {offset : Nat} {g : Gap} {place : Context}

theorem run_literal {first next : Char} {rest : List Char} (hg : g.Admits place)
    (word : Literal) (hfirst : isSpace first = false)
    (hstart : ∀ offset, startValue [] place offset first = .ok (.literal place word next rest))
    (hword : word.spelling.toList = first :: next :: rest) :
    (State.gap g).run offset word.spelling.toList =
      .ok (.gap (place.fill (.scalar word.spelling))) := by
  have hrest : ∀ offset next rest, (State.literal place word next rest).run offset (next :: rest) =
      .ok (.gap (place.fill (.scalar word.spelling))) := by
    intro offset next rest
    induction rest generalizing offset next with
    | nil => simp [State.run, State.step]
    | cons c rest ih =>
      have hstep : (State.literal place word next (c :: rest)).step offset next =
          .ok (.literal place word c rest) := by
        simp [State.step]
      rw [State.run_cons hstep]
      exact ih _ _
  rw [hword, State.run_cons (hg.step hfirst (hstart offset))]
  exact hrest _ _ _

/-- The reader takes a scalar to its end, wherever a value may start. -/
theorem run_scalar {lexeme : String} (hg : g.Admits place) (h : Scalar lexeme.toList) :
    ∃ state, (State.gap g).run offset lexeme.toList = .ok state ∧
      state.Ends (place.fill (.scalar lexeme)) := by
  have hlexeme : String.ofList lexeme.toList = lexeme := by simp
  generalize lexeme.toList = s at h hlexeme
  subst hlexeme
  cases h with
  | null => exact ⟨_, hg.run_literal .null (by decide) (fun _ => rfl) rfl, .gap _⟩
  | «true» => exact ⟨_, hg.run_literal .true (by decide) (fun _ => rfl) rfl, .gap _⟩
  | «false» => exact ⟨_, hg.run_literal .false (by decide) (fun _ => rfl) rfl, .gap _⟩
  | number h =>
    obtain ⟨part, hrun, hend⟩ := hg.run_number offset h
    refine ⟨_, hrun, ?_⟩
    simpa [State.afterNumber] using State.Ends.number place s.reverse hend
  | string h =>
    have hstart : ∀ offset, (State.gap g).step offset '"' =
        .ok (.string (.value place) offset ['"'] .plain) := by
      intro offset
      exact hg.step (by decide) (by simp [startValue])
    exact ⟨_, State.run_quoted hstart h, .gap _⟩

end Gap.Admits

end JsonLayout.Json
