import JsonLayout.Proofs.Json.Brackets
import JsonLayout.Proofs.Json.Soundness

/-!
# The reader keeps count of quotes and brackets

After every text that the reader has read, its state says the same about open strings and brackets
as a scan of that text, and the offsets that it keeps are those of the scan.
-/

namespace JsonLayout.Json

def Context.opened : Context → List (Nat × Char)
  | .top => []
  | .array start _ outer => (start, '[') :: outer.opened
  | .object start _ _ outer => (start, '{') :: outer.opened

def Gap.opened : Gap → List (Nat × Char)
  | .value place => place.opened
  | .firstItem start outer | .itemEnd start _ outer => (start, '[') :: outer.opened
  | .key start _ outer | .colon start _ _ outer | .memberEnd start _ outer =>
      (start, '{') :: outer.opened
  | .done _ => []

def StringRole.opened : StringRole → List (Nat × Char)
  | .value place => place.opened
  | .key start _ outer => (start, '{') :: outer.opened

def State.opened : State → List (Nat × Char)
  | .gap g => g.opened
  | .string role .. => role.opened
  | .literal place .. | .number place .. => place.opened

def StringPart.zone : StringPart → Zone
  | .escape _ => .escaped
  | .plain | .hex .. => .inside

@[simp] theorem Context.opened_fill (place : Context) (tree : Tree) :
    (place.fill tree).opened = place.opened := by
  cases place <;> rfl

@[simp] theorem StringRole.opened_fill (role : StringRole) (lexeme : String) :
    (role.fill lexeme).opened = role.opened := by
  cases role with
  | value place => exact place.opened_fill _
  | key => rfl

/-- The offsets that the part keeps lie right before the end of a text of so many bytes. -/
def NumberPart.EndsAt (bytes : Nat) : NumberPart → Prop
  | .zero start | .exponent start => start + 1 = bytes
  | .exponentSign start => start + 2 = bytes
  | .minus | .integer | .point | .fraction | .exponentDigits => True

def StringPart.EndsAt (bytes : Nat) : StringPart → Prop
  | .plain => True
  | .escape offset => offset + 1 = bytes
  | .hex offset more => offset + 5 = bytes + more

/-- The state agrees with the scan of the text before it. -/
def State.Agrees (k : Scan) : State → Prop
  | .gap g => k.zone = .outside ∧ k.opened = g.opened
  | .string role start _ part =>
      k.zone = part.zone ∧ k.opened = role.opened ∧ k.quote = some start ∧ part.EndsAt k.bytes
  | .literal place _ next rest =>
      k.zone = .outside ∧ k.opened = place.opened ∧ ∀ c ∈ next :: rest, Scan.Plain c
  | .number place _ part => k.zone = .outside ∧ k.opened = place.opened ∧ part.EndsAt k.bytes

variable {k : Scan} {c : Char} {state : State}

theorem isBlank_of_isSpace (h : isSpace c = true) : Text.isBlank c = true := by
  rcases isSpace_iff.mp h with rfl | rfl | rfl | rfl <;> rfl

theorem HexDigit.utf8Size (h : HexDigit c) : c.utf8Size = 1 := by
  have hhigh : c ≤ 'f' := by
    rcases h with h | h | h
    · exact Char.le_trans h.2 (by decide)
    · exact Char.le_trans h.2 (by decide)
    · exact h.2
  exact Char.utf8Size_eq_one_iff.mpr (UInt32.le_trans hhigh (by decide))

theorem NumberPart.endsAt_start {offset : Nat} {part : NumberPart}
    (h : NumberPart.start? offset c = some part) :
    NumberChar c ∧ part.EndsAt (offset + c.utf8Size) := by
  unfold NumberPart.start? at h
  split_ifs at h with hminus hzero hdigit <;> cases h
  · exact ⟨.inr (by simp [hminus]), trivial⟩
  · subst hzero
    exact ⟨.inl (by unfold Digit; decide), rfl⟩
  · exact ⟨.inl (digit_iff.mpr hdigit), trivial⟩

theorem NumberPart.endsAt_afterInteger {offset : Nat} {part : NumberPart}
    (h : NumberPart.afterInteger offset c = .more part) :
    NumberChar c ∧ part.EndsAt (offset + c.utf8Size) := by
  unfold NumberPart.afterInteger at h
  split_ifs at h with hpoint hmark <;> cases h
  · exact ⟨.inr (by simp [hpoint]), trivial⟩
  · have hletter : c = 'e' ∨ c = 'E' := by simpa using hmark
    rcases hletter with rfl | rfl <;> exact ⟨.inr (by simp), rfl⟩

theorem NumberPart.endsAt_next {offset : Nat} {part part' : NumberPart}
    (h : part.next offset c = .more part') (hpart : part.EndsAt offset) :
    NumberChar c ∧ part'.EndsAt (offset + c.utf8Size) := by
  have hdigits : c.isDigit = true → NumberChar c := fun hc => .inl (digit_iff.mpr hc)
  have hmarks : (c = 'e' || c = 'E') = true → NumberChar c ∧ offset + 1 = offset + c.utf8Size := by
    intro hc
    have hletter : c = 'e' ∨ c = 'E' := by simpa using hc
    rcases hletter with rfl | rfl <;> exact ⟨.inr (by simp), rfl⟩
  cases part with
  | minus =>
    simp only [NumberPart.next] at h
    split_ifs at h with hzero hdigit <;> cases h
    · subst hzero
      exact ⟨hdigits rfl, rfl⟩
    · exact ⟨hdigits hdigit, trivial⟩
  | zero start =>
    simp only [NumberPart.next] at h
    split_ifs at h
    exact endsAt_afterInteger h
  | integer =>
    simp only [NumberPart.next] at h
    split_ifs at h with hdigit
    · cases h
      exact ⟨hdigits hdigit, trivial⟩
    · exact endsAt_afterInteger h
  | point =>
    simp only [NumberPart.next] at h
    split_ifs at h with hdigit
    cases h
    exact ⟨hdigits hdigit, trivial⟩
  | fraction =>
    simp only [NumberPart.next] at h
    split_ifs at h with hdigit hpoint hmark <;> cases h
    · exact ⟨hdigits hdigit, trivial⟩
    · exact hmarks hmark
  | exponent start =>
    simp only [NumberPart.next] at h
    split_ifs at h with hdigit hsign <;> cases h
    · exact ⟨hdigits hdigit, trivial⟩
    · have hsigns : c = '+' ∨ c = '-' := by simpa using hsign
      subst hpart
      rcases hsigns with rfl | rfl <;> exact ⟨.inr (by simp), rfl⟩
  | exponentSign start =>
    simp only [NumberPart.next] at h
    split_ifs at h with hdigit
    cases h
    exact ⟨hdigits hdigit, trivial⟩
  | exponentDigits =>
    simp only [NumberPart.next] at h
    split_ifs at h with hdigit
    cases h
    exact ⟨hdigits hdigit, trivial⟩

namespace State.Agrees

theorem plain {g : Gap} (hzone : k.zone = .outside) (hopened : k.opened = g.opened)
    (hc : Scan.Plain c) : (State.gap g).Agrees (k.next c) := by
  rw [Scan.next_plain hzone hc]
  exact ⟨hzone, hopened⟩

theorem opening {g : Gap} (hzone : k.zone = .outside) (hc : c = '[' ∨ c = '{')
    (hopened : g.opened = (k.bytes, c) :: k.opened) : (State.gap g).Agrees (k.next c) := by
  rw [Scan.next_open hzone hc]
  exact ⟨hzone, hopened.symm⟩

theorem closing {place : Context} {tree : Tree} {bracket : Nat × Char} (hzone : k.zone = .outside)
    (hopened : k.opened = bracket :: place.opened) (hc : c = ']' ∨ c = '}') :
    (State.gap (place.fill tree)).Agrees (k.next c) := by
  rw [Scan.next_close hzone hc]
  refine ⟨hzone, ?_⟩
  rw [Context.opened_fill, hopened, List.tail_cons]

theorem quote {role : StringRole} {lexeme : List Char} (hzone : k.zone = .outside)
    (hopened : k.opened = role.opened) :
    (State.string role k.bytes lexeme .plain).Agrees (k.next '"') := by
  rw [Scan.next_quote hzone]
  exact ⟨rfl, hopened, rfl, trivial⟩

theorem literal {place : Context} {word : Literal} {next : Char} {rest : List Char}
    (hzone : k.zone = .outside) (hopened : k.opened = place.opened)
    (hc : ∀ d ∈ c :: next :: rest, Scan.Plain d) :
    (State.literal place word next rest).Agrees (k.next c) := by
  obtain ⟨hc, hrest⟩ := List.forall_mem_cons.mp hc
  rw [Scan.next_plain hzone hc]
  exact ⟨hzone, hopened, hrest⟩

theorem number {place : Context} {lexeme : List Char} {part : NumberPart}
    (hzone : k.zone = .outside) (hopened : k.opened = place.opened)
    (h : NumberChar c ∧ part.EndsAt (k.bytes + c.utf8Size)) :
    (State.number place lexeme part).Agrees (k.next c) := by
  rw [Scan.next_plain hzone (Scan.plain_of_numberChar h.1)]
  exact ⟨hzone, hopened, h.2⟩

theorem startValue {wanted : List Wanted} {place : Context} (hzone : k.zone = .outside)
    (hopened : k.opened = place.opened)
    (hstart : Json.startValue wanted place k.bytes c = .ok state) : state.Agrees (k.next c) := by
  unfold Json.startValue at hstart
  split_ifs at hstart with harray _ hobject _ hquote hnull htrue hfalse
  · cases hstart
    exact opening hzone (.inl harray) (by rw [Gap.opened, hopened, harray])
  · cases hstart
    exact opening hzone (.inr hobject) (by rw [Gap.opened, hopened, hobject])
  · cases hstart
    exact hquote ▸ quote hzone hopened
  · cases hstart
    exact literal hzone hopened (by simp [Scan.Plain, hnull])
  · cases hstart
    exact literal hzone hopened (by simp [Scan.Plain, htrue])
  · cases hstart
    exact literal hzone hopened (by simp [Scan.Plain, hfalse])
  · split at hstart
    · rename_i part hpart
      cases hstart
      exact number hzone hopened (NumberPart.endsAt_start hpart)
    · contradiction

theorem gap_step {g : Gap} (h : (State.gap g).Agrees k) (hstep : g.step k.bytes c = .ok state) :
    state.Agrees (k.next c) := by
  obtain ⟨hzone, hopened⟩ := h
  unfold Gap.step at hstep
  by_cases hspace : isSpace c = true
  · rw [if_pos hspace] at hstep
    cases hstep
    exact plain hzone hopened (Scan.plain_of_isBlank (isBlank_of_isSpace hspace))
  rw [if_neg hspace] at hstep
  cases g with
  | value place => exact startValue hzone hopened hstep
  | firstItem start outer =>
    simp only at hstep
    split_ifs at hstep with hclose
    · cases hstep
      exact closing hzone hopened (.inl hclose)
    · have hplace : k.opened = (Context.array start [] outer).opened := hopened
      exact startValue hzone hplace hstep
  | itemEnd start before outer =>
    simp only at hstep
    split_ifs at hstep with hcomma hclose <;> cases hstep
    · exact plain hzone hopened (by simp [Scan.Plain, hcomma])
    · exact closing hzone hopened (.inl hclose)
  | key start before outer =>
    simp only at hstep
    split_ifs at hstep with hquote _ hclose <;> cases hstep
    · exact hquote ▸ quote hzone hopened
    · exact closing hzone hopened (.inr hclose)
  | colon start before key outer =>
    simp only at hstep
    split_ifs at hstep with hcolon
    cases hstep
    exact plain hzone hopened (by simp [Scan.Plain, hcolon])
  | memberEnd start before outer =>
    simp only at hstep
    split_ifs at hstep with hcomma hclose <;> cases hstep
    · exact plain hzone hopened (by simp [Scan.Plain, hcomma])
    · exact closing hzone hopened (.inr hclose)
  | done => contradiction

theorem string_step {role : StringRole} {start : Nat} {lexeme : List Char} {part : StringPart}
    (h : (State.string role start lexeme part).Agrees k)
    (hstep : stringStep role start lexeme k.bytes c part = .ok state) :
    state.Agrees (k.next c) := by
  obtain ⟨hzone, hopened, hquote, hends⟩ := h
  have hinside : k.zone ≠ .outside := by
    rw [hzone]
    cases part <;> simp [StringPart.zone]
  have hstay : ∀ zone, part.zone.next c = zone → zone ≠ .outside →
      (k.next c).zone = zone ∧ (k.next c).opened = role.opened ∧
        (k.next c).quote = some start := by
    rintro zone rfl hne
    rw [← hzone] at hne ⊢
    exact ⟨rfl, (Scan.opened_next_of_ne hinside).trans hopened,
      (Scan.quote_next_of_ne hinside hne).trans hquote⟩
  cases part with
  | plain =>
    simp only [stringStep] at hstep
    split_ifs at hstep with hclose hbackslash <;> cases hstep
    · have hzone' : (k.next c).zone = .outside := by
        simp [Scan.next, hzone, StringPart.zone, Zone.next, hclose]
      exact ⟨hzone', ((Scan.opened_next_of_ne hinside).trans hopened).trans
        (role.opened_fill _).symm⟩
    · subst hbackslash
      obtain ⟨hzone', hopened', hquote'⟩ := hstay .escaped rfl (by simp)
      exact ⟨hzone', hopened', hquote', rfl⟩
    · obtain ⟨hzone', hopened', hquote'⟩ :=
        hstay .inside (by simp [StringPart.zone, Zone.next, hclose, hbackslash]) (by simp)
      exact ⟨hzone', hopened', hquote', trivial⟩
  | escape backslash =>
    simp only [stringStep] at hstep
    obtain ⟨hzone', hopened', hquote'⟩ := hstay .inside rfl (by simp)
    split_ifs at hstep with hshort hcode <;> cases hstep
    · exact ⟨hzone', hopened', hquote', trivial⟩
    · have hends' : backslash + 5 = k.bytes + c.utf8Size + 3 := by
        rw [hcode, ← hends]
        rfl
      exact ⟨hzone', hopened', hquote', hends'⟩
  | hex backslash more =>
    simp only [stringStep] at hstep
    split_ifs at hstep with hhex
    have hdigit := hexDigit_iff.mpr hhex
    have hnext : Zone.inside.next c = .inside := by
      simp [Zone.next, hdigit.ne_quote_and_ne_backslash]
    obtain ⟨hzone', hopened', hquote'⟩ := hstay .inside hnext (by simp)
    cases more with
    | zero =>
      cases hstep
      exact ⟨hzone', hopened', hquote', trivial⟩
    | succ more =>
      cases hstep
      have hends' : backslash + 5 = k.bytes + c.utf8Size + more := by
        rw [hdigit.utf8Size]
        simp only [StringPart.EndsAt] at hends
        omega
      exact ⟨hzone', hopened', hquote', hends'⟩

theorem step (h : state.Agrees k) {next : State} (hstep : state.step k.bytes c = .ok next) :
    next.Agrees (k.next c) := by
  cases state with
  | gap g => exact gap_step h hstep
  | string role start lexeme part => exact string_step h hstep
  | literal place word first rest =>
    obtain ⟨hzone, hopened, hplain⟩ := h
    simp only [State.step] at hstep
    split_ifs at hstep with hfirst
    subst hfirst
    cases rest with
    | nil =>
      cases hstep
      exact plain hzone (hopened.trans (place.opened_fill _).symm) (hplain c (by simp))
    | cons d rest =>
      cases hstep
      exact literal hzone hopened hplain
  | number place lexeme part =>
    obtain ⟨hzone, hopened, hends⟩ := h
    simp only [State.step] at hstep
    split at hstep
    · rename_i part' hnext
      cases hstep
      exact number hzone hopened (NumberPart.endsAt_next hnext hends)
    · contradiction
    · exact gap_step ⟨hzone, hopened.trans (place.opened_fill _).symm⟩ hstep

theorem run {s : List Char} (h : state.Agrees k) {last : State}
    (hrun : state.run k.bytes s = .ok last) : last.Agrees (k.after s) := by
  induction s generalizing k state with
  | nil =>
    cases hrun
    exact h
  | cons c s ih =>
    obtain ⟨next, hstep, hrest⟩ := run_cons_ok hrun
    exact ih (h.step hstep) hrest

end State.Agrees

theorem State.Agrees.opened (h : state.Agrees k) : k.opened = state.opened := by
  cases state with
  | gap => exact h.2
  | string | number | literal => exact h.2.1

/-- What the reader keeps of the text that it has read is what a scan of that text tells. -/
theorem State.agrees_of_run {s : List Char}
    (h : (State.gap (.value .top)).run 0 s = .ok state) : state.Agrees (scan s) := by
  have hstart : (State.gap (.value .top)).Agrees {} := ⟨rfl, rfl⟩
  exact hstart.run h

/-! What stands before a place leaves no string open. -/

theorem Spelled.closed {phrase : Phrase} {s : List Char} (h : Spelled phrase s) : Closed s :=
  .of_laidOut h.laidOut

theorem ItemsBefore.closed {trees : List Tree} {s : List Char} (h : ItemsBefore trees s) :
    Closed s := by
  cases h with
  | none => rfl
  | some h => exact h.closed.append rfl

theorem MembersBefore.closed {fields : List (String × Tree)} {s : List Char}
    (h : MembersBefore fields s) : Closed s := by
  cases h with
  | none => rfl
  | some h => exact h.closed.append rfl

theorem Context.Before.closed {place : Context} {s : List Char} (h : place.Before s) :
    Closed s := by
  induction h with
  | top hw => exact .of_ws hw
  | @array start before outer p s w _ _ hbefore _ hw ih =>
    have hopen : Closed (p ++ ['[']) := ih.append rfl
    simpa using (hopen.append hbefore.closed).append (.of_ws hw)
  | @object start before key outer p s w w' w'' _ _ hbefore _ hw hkey hw' hw'' ih =>
    have hopen : Closed (p ++ ['{']) := ih.append rfl
    have hmember := ((hopen.append hbefore.closed).append (.of_ws hw)).append hkey.keeps.2
    have hcolon : Closed [':'] := rfl
    simpa using (hmember.append (.of_ws hw')).append (hcolon.append (.of_ws hw''))

theorem StringRole.Before.closed {role : StringRole} {s : List Char} (h : role.Before s) :
    Closed s := by
  cases h with
  | value h => exact h.closed
  | key h =>
    cases h with
    | @key start before outer p s w houter hdepth hbefore hnests hw =>
      have hopen : Closed (p ++ ['{']) := houter.closed.append rfl
      simpa using (hopen.append hbefore.closed).append (.of_ws hw)

/-! Where the parts of scalars under way stand. -/

namespace State.After

variable {place : Context} {lexeme p : List Char} {part : NumberPart} {start : Nat}

theorem exists_number (h : (State.number place lexeme part).After p) :
    ∃ q, place.Before q ∧ part.After lexeme.reverse ∧ p = q ++ lexeme.reverse := by
  generalize hstate : State.number place lexeme part = state at h
  cases h with
  | gap | string | literal => cases hstate
  | number hplace hpart =>
    cases hstate
    exact ⟨_, hplace, hpart, rfl⟩

theorem exists_zero (h : (State.number place lexeme (.zero start)).After p)
    (hagrees : (State.number place lexeme (.zero start)).Agrees (scan p)) :
    ∃ q sign, place.Before q ∧ (sign = [] ∨ sign = ['-']) ∧ p = q ++ sign ++ ['0'] ∧
      Text.byteLength (q ++ sign) = start := by
  obtain ⟨q, hplace, hpart, rfl⟩ := h.exists_number
  obtain ⟨-, -, hends⟩ := hagrees
  generalize lexeme.reverse = read at hpart hends
  cases hpart with
  | @zero sign _ hsign =>
    refine ⟨q, sign, hplace, hsign, (List.append_assoc ..).symm, ?_⟩
    rw [bytes_scan, ← List.append_assoc, Text.byteLength_append] at hends
    exact Nat.add_right_cancel hends.symm

theorem exists_fraction (h : (State.number place lexeme .fraction).After p) :
    ∃ q sign int ds, place.Before q ∧ (sign = [] ∨ sign = ['-']) ∧ Integer int ∧ Digits ds ∧
      p = q ++ (sign ++ int ++ '.' :: ds) := by
  obtain ⟨q, hplace, hpart, rfl⟩ := h.exists_number
  generalize lexeme.reverse = read at hpart
  cases hpart with
  | fraction hsign hint digits => exact ⟨q, _, _, _, hplace, hsign, hint, digits, rfl⟩

theorem exists_exponent (h : (State.number place lexeme (.exponent start)).After p)
    (hagrees : (State.number place lexeme (.exponent start)).Agrees (scan p)) :
    ∃ q n d, place.Before q ∧ Number n ∧ (d = 'e' ∨ d = 'E') ∧ p = q ++ n ++ [d] ∧
      Text.byteLength (q ++ n) = start := by
  obtain ⟨q, hplace, hpart, rfl⟩ := h.exists_number
  obtain ⟨-, -, hends⟩ := hagrees
  generalize lexeme.reverse = read at hpart hends
  cases hpart with
  | @exponent d sign int frac _ hsign hint hfrac hletter =>
    have hnumber := Number.parts hsign hint hfrac .none
    rw [List.append_nil] at hnumber
    refine ⟨q, _, d, hplace, hnumber, hletter, (List.append_assoc ..).symm, ?_⟩
    rw [bytes_scan, ← List.append_assoc, Text.byteLength_append] at hends
    rcases hletter with rfl | rfl <;> exact Nat.add_right_cancel hends.symm

theorem exists_exponentSign (h : (State.number place lexeme (.exponentSign start)).After p)
    (hagrees : (State.number place lexeme (.exponentSign start)).Agrees (scan p)) :
    ∃ q n d sign, place.Before q ∧ Number n ∧ (d = 'e' ∨ d = 'E') ∧ (sign = '+' ∨ sign = '-') ∧
      p = q ++ n ++ [d, sign] ∧ Text.byteLength (q ++ n) = start := by
  obtain ⟨q, hplace, hpart, rfl⟩ := h.exists_number
  obtain ⟨-, -, hends⟩ := hagrees
  generalize lexeme.reverse = read at hpart hends
  cases hpart with
  | @exponentSign d c sign int frac _ hsign hint hfrac hletter hplusMinus =>
    have hnumber := Number.parts hsign hint hfrac .none
    rw [List.append_nil] at hnumber
    refine ⟨q, _, d, c, hplace, hnumber, hletter, hplusMinus, (List.append_assoc ..).symm, ?_⟩
    rw [bytes_scan, ← List.append_assoc, Text.byteLength_append] at hends
    rcases hletter with rfl | rfl <;> rcases hplusMinus with rfl | rfl <;>
      exact Nat.add_right_cancel hends.symm

/-- The backslash of a code point is one that escapes, and only digits stand after its letter. -/
theorem exists_hex {role : StringRole} {backslash more : Nat}
    (h : (State.string role start lexeme (.hex backslash more)).After p)
    (hagrees : (State.string role start lexeme (.hex backslash more)).Agrees (scan p)) :
    ∃ q ds, p = q ++ '\\' :: 'u' :: ds ∧ Text.byteLength q = backslash ∧
      Zone.outside.after q = .inside ∧ (∀ d ∈ ds, HexDigit d) ∧ ds.length + more = 3 := by
  obtain ⟨-, -, -, hends⟩ := hagrees
  generalize hstate : State.string role start lexeme (.hex backslash more) = state at h
  cases h with
  | gap | literal | number => cases hstate
  | @string role start lexeme p part hrole hpart =>
    cases hstate
    generalize lexeme.reverse = read at hpart hends
    cases hpart with
    | @hex s ds _ _ letters digits due =>
      have hds : Text.byteLength ds = ds.length := by
        clear hends due
        induction ds with
        | nil => rfl
        | cons d ds ih =>
          obtain ⟨hd, hds⟩ := List.forall_mem_cons.mp digits
          rw [Text.byteLength, hd.utf8Size, ih hds, List.length_cons, Nat.add_comm]
      have hmark : Text.byteLength ('\\' :: 'u' :: ds) = 2 + ds.length := by
        rw [Text.byteLength, Text.byteLength, hds, ← Nat.add_assoc]
        rfl
      have hopen : Zone.outside.after (p ++ ['"']) = .inside := by
        rw [Zone.after_append, hrole.closed]
        rfl
      refine ⟨p ++ '"' :: s, ds, by simp, ?_, ?_, digits, due⟩
      · rw [bytes_scan, ← List.append_assoc, Text.byteLength_append, hmark] at hends
        simp only [StringPart.EndsAt] at hends
        omega
      · have hsplit : p ++ '"' :: s = p ++ ['"'] ++ s := by simp
        rw [hsplit, Zone.after_append, hopen, letters.keeps.2]

end State.After

end JsonLayout.Json
