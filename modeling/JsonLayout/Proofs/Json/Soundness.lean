import JsonLayout.Proofs.Json.Lexemes

/-!
# Every text that is read is one of the grammar

Each state of the reader fixes the shape of the text before it: which rules of the grammar are
under way and how far. One character more keeps this, so it holds after every run, and at the end
of a text it is a derivation of the whole.
-/

namespace JsonLayout.Json

/-! Parts of scalars. -/

/-- A number may have the text as its beginning up to and with this part. -/
inductive NumberPart.After : NumberPart → List Char → Prop
  | minus : After .minus ['-']
  | zero {sign : List Char} {offset : Nat} (hsign : sign = [] ∨ sign = ['-']) :
      After (.zero offset) (sign ++ ['0'])
  | integer {c : Char} {sign ds : List Char} (hsign : sign = [] ∨ sign = ['-'])
      (first : '1' ≤ c ∧ c ≤ '9') (rest : ∀ d ∈ ds, Digit d) : After .integer (sign ++ c :: ds)
  | point {sign int : List Char} (hsign : sign = [] ∨ sign = ['-']) (hint : Integer int) :
      After .point (sign ++ int ++ ['.'])
  | fraction {sign int ds : List Char} (hsign : sign = [] ∨ sign = ['-']) (hint : Integer int)
      (digits : Digits ds) : After .fraction (sign ++ int ++ '.' :: ds)
  | exponent {e : Char} {sign int frac : List Char} {offset : Nat}
      (hsign : sign = [] ∨ sign = ['-']) (hint : Integer int) (hfrac : Fraction frac)
      (letter : e = 'e' ∨ e = 'E') : After (.exponent offset) (sign ++ int ++ frac ++ [e])
  | exponentSign {e c : Char} {sign int frac : List Char} {offset : Nat}
      (hsign : sign = [] ∨ sign = ['-']) (hint : Integer int) (hfrac : Fraction frac)
      (letter : e = 'e' ∨ e = 'E') (plusMinus : c = '+' ∨ c = '-') :
      After (.exponentSign offset) (sign ++ int ++ frac ++ [e, c])
  | exponentDigits {e : Char} {sign int frac sign' ds : List Char}
      (hsign : sign = [] ∨ sign = ['-']) (hint : Integer int) (hfrac : Fraction frac)
      (letter : e = 'e' ∨ e = 'E') (signs : sign' = [] ∨ sign' = ['+'] ∨ sign' = ['-'])
      (digits : Digits ds) :
      After .exponentDigits (sign ++ int ++ frac ++ e :: (sign' ++ ds))

theorem digits_singleton {c : Char} (h : c.isDigit = true) : Digits [c] := by
  simpa [Digits, digit_iff] using h

theorem Digits.snoc {c : Char} {ds : List Char} (hds : Digits ds) (hc : c.isDigit = true) :
    Digits (ds ++ [c]) := by
  have hlast : ∀ d ∈ [c], Digit d := List.forall_mem_singleton.mpr (digit_iff.mpr hc)
  exact ⟨by simp, List.forall_mem_append.mpr ⟨hds.2, hlast⟩⟩

theorem nonzero_of_isDigit {c : Char} (h : c.isDigit = true) (h0 : c ≠ '0') :
    '1' ≤ c ∧ c ≤ '9' := by
  have hdigit := Char.isDigit_iff_toNat.mp h
  have hne : c.toNat ≠ '0'.toNat := fun he => h0 (Char.toNat_inj.mp he)
  simp only [Char.le_def, UInt32.le_iff_toNat_le, Char.toNat_val] at *
  have h0 : '0'.toNat = 48 := rfl
  have h1 : '1'.toNat = 49 := rfl
  omega

namespace NumberPart.After

theorem start {offset : Nat} {c : Char} {part : NumberPart}
    (h : NumberPart.start? offset c = some part) : part.After [c] := by
  unfold NumberPart.start? at h
  split_ifs at h with hminus hzero hdigit <;> cases h
  · exact hminus ▸ .minus
  · exact hzero ▸ .zero (.inl rfl)
  · exact .integer (.inl rfl) (nonzero_of_isDigit hdigit hzero) (by simp)

theorem afterInteger {offset : Nat} {c : Char} {sign int : List Char} {part : NumberPart}
    (hsign : sign = [] ∨ sign = ['-']) (hint : Integer int)
    (h : NumberPart.afterInteger offset c = .more part) : part.After (sign ++ int ++ [c]) := by
  unfold NumberPart.afterInteger at h
  split_ifs at h with hpoint hmark <;> cases h
  · exact hpoint ▸ .point hsign hint
  · have hletter : c = 'e' ∨ c = 'E' := by simpa using hmark
    simpa using (After.exponent hsign hint .none hletter : After (.exponent offset) _)

theorem next {offset : Nat} {c : Char} {s : List Char} {part part' : NumberPart}
    (h : part.After s) (hnext : part.next offset c = .more part') : part'.After (s ++ [c]) := by
  cases h with
  | minus =>
    simp only [NumberPart.next] at hnext
    split_ifs at hnext with hzero hdigit <;> cases hnext
    · subst hzero
      exact (After.zero (.inr rfl) : After (.zero offset) (['-'] ++ ['0']))
    · exact (After.integer (.inr rfl) (nonzero_of_isDigit hdigit hzero) (by simp) :
        After .integer (['-'] ++ [c]))
  | zero hsign =>
    simp only [NumberPart.next] at hnext
    split_ifs at hnext
    exact afterInteger hsign .zero hnext
  | integer hsign first rest =>
    simp only [NumberPart.next] at hnext
    split_ifs at hnext with hdigit
    · cases hnext
      have hlast : ∀ d ∈ [c], Digit d := List.forall_mem_singleton.mpr (digit_iff.mpr hdigit)
      rw [List.append_assoc, List.cons_append]
      exact .integer hsign first (List.forall_mem_append.mpr ⟨rest, hlast⟩)
    · exact afterInteger hsign (.positive first rest) hnext
  | point hsign hint =>
    simp only [NumberPart.next] at hnext
    split_ifs at hnext with hdigit
    cases hnext
    have hfraction := After.fraction hsign hint (digits_singleton hdigit)
    simpa using hfraction
  | fraction hsign hint digits =>
    simp only [NumberPart.next] at hnext
    split_ifs at hnext with hdigit hpoint hmark <;> cases hnext
    · have hfraction := After.fraction hsign hint (digits.snoc hdigit)
      simpa using hfraction
    · have hletter : c = 'e' ∨ c = 'E' := by simpa using hmark
      exact .exponent hsign hint (.point digits) hletter
  | exponent hsign hint hfrac letter =>
    simp only [NumberPart.next] at hnext
    split_ifs at hnext with hdigit hsigns <;> cases hnext
    · have hdigits := After.exponentDigits hsign hint hfrac letter (.inl rfl)
        (digits_singleton hdigit)
      simpa using hdigits
    · have hplusMinus : c = '+' ∨ c = '-' := by simpa using hsigns
      simpa using After.exponentSign hsign hint hfrac letter hplusMinus
  | exponentSign hsign hint hfrac letter plusMinus =>
    simp only [NumberPart.next] at hnext
    split_ifs at hnext with hdigit
    cases hnext
    have hsigns : ∀ d, d = '+' ∨ d = '-' → [d] = [] ∨ [d] = ['+'] ∨ [d] = ['-'] := by
      rintro d (rfl | rfl) <;> simp
    have hdigits := After.exponentDigits hsign hint hfrac letter (hsigns _ plusMinus)
      (digits_singleton hdigit)
    simpa using hdigits
  | exponentDigits hsign hint hfrac letter signs digits =>
    simp only [NumberPart.next] at hnext
    split_ifs at hnext with hdigit
    cases hnext
    have hdigits := After.exponentDigits hsign hint hfrac letter signs (digits.snoc hdigit)
    simpa using hdigits

theorem number {s : List Char} {part : NumberPart} (h : part.After s)
    (hend : part.endError? = none) : Number s := by
  cases h with
  | zero hsign => simpa using Number.parts hsign .zero .none .none
  | integer hsign first rest => simpa using Number.parts hsign (.positive first rest) .none .none
  | fraction hsign hint digits => simpa using Number.parts hsign hint (.point digits) .none
  | exponentDigits hsign hint hfrac letter signs digits =>
    exact .parts hsign hint hfrac (.mark letter signs digits)
  | minus => contradiction
  | point => contradiction
  | exponent => contradiction
  | exponentSign => contradiction

end NumberPart.After

/-- A string may have the text as its beginning when the reader is at this place in it. -/
inductive StringPart.After : StringPart → List Char → Prop
  | plain {s : List Char} (letters : Letters s) : After .plain ('"' :: s)
  | escape {s : List Char} {offset : Nat} (letters : Letters s) :
      After (.escape offset) ('"' :: s ++ ['\\'])
  | hex {s ds : List Char} {offset more : Nat} (letters : Letters s)
      (digits : ∀ d ∈ ds, HexDigit d) (due : ds.length + more = 3) :
      After (.hex offset more) ('"' :: s ++ '\\' :: 'u' :: ds)

theorem letter_codePoint {ds : List Char} (h : ∀ d ∈ ds, HexDigit d) (hlen : ds.length = 4) :
    Letter ('\\' :: 'u' :: ds) := by
  match ds, hlen with
  | [a, b, c, d], _ => exact .codePoint (h a (by simp)) (h b (by simp)) (h c (by simp)) (h d (by simp))

/-! What stands before a place. -/

/-- The items before the next one, and the comma between them. -/
inductive ItemsBefore : List Tree → List Char → Prop
  | none : ItemsBefore [] []
  | some {trees : List Tree} {s : List Char} (h : Spelled (.items trees) s) :
      ItemsBefore trees (s ++ [','])

inductive MembersBefore : List (String × Tree) → List Char → Prop
  | none : MembersBefore [] []
  | some {fields : List (String × Tree)} {s : List Char} (h : Spelled (.members fields) s) :
      MembersBefore fields (s ++ [','])

theorem ItemsBefore.items {tree : Tree} {trees : List Tree} {s t : List Char}
    (h : ItemsBefore trees s) (ht : Spelled (.element tree) t) :
    Spelled (.items (trees ++ [tree])) (s ++ t) := by
  cases h with
  | none => exact .firstItem ht
  | some h => simpa using Spelled.nextItem h ht

theorem MembersBefore.eq_nil {s : List Char} (h : MembersBefore [] s) : s = [] := by
  generalize hfields : ([] : List (String × Tree)) = fields at h
  cases h with
  | none => rfl
  | some h => cases h <;> simp at hfields

theorem MembersBefore.members {key : String} {tree : Tree} {fields : List (String × Tree)}
    {s t : List Char} (h : MembersBefore fields s) (ht : Spelled (.member key tree) t) :
    Spelled (.members (fields ++ [(key, tree)])) (s ++ t) := by
  cases h with
  | none => exact .firstMember ht
  | some h => simpa using Spelled.nextMember h ht

/-- The text before a value in this place, with the white space in front of the value. -/
inductive Context.Before : Context → List Char → Prop
  | top {w : List Char} (hw : Ws w) : Before .top w
  | array {start : Nat} {before : List Tree} {outer : Context} {p s w : List Char}
      (houter : Before outer p) (hdepth : outer.depth < maxDepth)
      (hbefore : ItemsBefore before.reverse s)
      (hnests : ∀ item ∈ before, item.NestsWithin (maxDepth - (outer.depth + 1))) (hw : Ws w) :
      Before (.array start before outer) (p ++ '[' :: s ++ w)
  | object {start : Nat} {before : List (String × Tree)} {key : String} {outer : Context}
      {p s w w' w'' : List Char} (houter : Before outer p) (hdepth : outer.depth < maxDepth)
      (hbefore : MembersBefore before.reverse s)
      (hnests : ∀ m ∈ before, m.2.NestsWithin (maxDepth - (outer.depth + 1))) (hw : Ws w)
      (hkey : Quoted key.toList) (hw' : Ws w') (hw'' : Ws w'') :
      Before (.object start before key outer) (p ++ '{' :: s ++ w ++ key.toList ++ w' ++ ':' :: w'')

/-- The text up to a gap. -/
inductive Gap.After : Gap → List Char → Prop
  | value {place : Context} {s : List Char} (h : place.Before s) : After (.value place) s
  | firstItem {start : Nat} {outer : Context} {p w : List Char} (houter : outer.Before p)
      (hdepth : outer.depth < maxDepth) (hw : Ws w) : After (.firstItem start outer) (p ++ '[' :: w)
  | itemEnd {start : Nat} {before : List Tree} {outer : Context} {p s : List Char}
      (houter : outer.Before p) (hdepth : outer.depth < maxDepth)
      (hbefore : Spelled (.items before.reverse) s)
      (hnests : ∀ item ∈ before, item.NestsWithin (maxDepth - (outer.depth + 1))) :
      After (.itemEnd start before outer) (p ++ '[' :: s)
  | key {start : Nat} {before : List (String × Tree)} {outer : Context} {p s w : List Char}
      (houter : outer.Before p) (hdepth : outer.depth < maxDepth)
      (hbefore : MembersBefore before.reverse s)
      (hnests : ∀ m ∈ before, m.2.NestsWithin (maxDepth - (outer.depth + 1))) (hw : Ws w) :
      After (.key start before outer) (p ++ '{' :: s ++ w)
  | colon {start : Nat} {before : List (String × Tree)} {key : String} {outer : Context}
      {p s w w' : List Char} (houter : outer.Before p) (hdepth : outer.depth < maxDepth)
      (hbefore : MembersBefore before.reverse s)
      (hnests : ∀ m ∈ before, m.2.NestsWithin (maxDepth - (outer.depth + 1))) (hw : Ws w)
      (hkey : Quoted key.toList) (hw' : Ws w') :
      After (.colon start before key outer) (p ++ '{' :: s ++ w ++ key.toList ++ w')
  | memberEnd {start : Nat} {before : List (String × Tree)} {outer : Context} {p s : List Char}
      (houter : outer.Before p) (hdepth : outer.depth < maxDepth)
      (hbefore : Spelled (.members before.reverse) s)
      (hnests : ∀ m ∈ before, m.2.NestsWithin (maxDepth - (outer.depth + 1))) :
      After (.memberEnd start before outer) (p ++ '{' :: s)
  | done {tree : Tree} {s : List Char} (h : Spelled (.element tree) s)
      (hnests : tree.NestsWithin maxDepth) : After (.done tree) s

/-- The text before a string that is read in this role. -/
inductive StringRole.Before : StringRole → List Char → Prop
  | value {place : Context} {s : List Char} (h : place.Before s) : Before (.value place) s
  | key {start : Nat} {before : List (String × Tree)} {outer : Context} {s : List Char}
      (h : (Gap.key start before outer).After s) : Before (.key start before outer) s

/-- The text that has been read in this state. -/
inductive State.After : State → List Char → Prop
  | gap {g : Gap} {s : List Char} (h : g.After s) : After (.gap g) s
  | string {role : StringRole} {start : Nat} {lexeme p : List Char} {part : StringPart}
      (hrole : role.Before p) (hpart : part.After lexeme.reverse) :
      After (.string role start lexeme part) (p ++ lexeme.reverse)
  | literal {place : Context} {word : Literal} {next : Char} {rest p s : List Char}
      (hplace : place.Before p) (hword : word.spelling.toList = s ++ next :: rest) :
      After (.literal place word next rest) (p ++ s)
  | number {place : Context} {lexeme p : List Char} {part : NumberPart} (hplace : place.Before p)
      (hpart : part.After lexeme.reverse) : After (.number place lexeme part) (p ++ lexeme.reverse)

/-! More white space. -/

theorem Context.Before.append_ws {place : Context} {s w : List Char} (h : place.Before s)
    (hw : Ws w) : place.Before (s ++ w) := by
  cases h with
  | top hw' => exact .top (hw'.append hw)
  | array houter hdepth hbefore hnests hw' =>
    rw [List.append_assoc]
    exact .array houter hdepth hbefore hnests (hw'.append hw)
  | object houter hdepth hbefore hnests hkeyWs hkey hcolonWs hw' =>
    rw [List.append_assoc, List.cons_append]
    exact .object houter hdepth hbefore hnests hkeyWs hkey hcolonWs (hw'.append hw)

theorem Gap.After.append_ws {g : Gap} {s w : List Char} (h : g.After s) (hw : Ws w) :
    g.After (s ++ w) := by
  cases h with
  | value h => exact .value (h.append_ws hw)
  | firstItem houter hdepth hw' =>
    rw [List.append_assoc, List.cons_append]
    exact .firstItem houter hdepth (hw'.append hw)
  | itemEnd houter hdepth hbefore hnests =>
    rw [List.append_assoc, List.cons_append]
    exact .itemEnd houter hdepth (hbefore.append_ws (by simp) hw) hnests
  | key houter hdepth hbefore hnests hw' =>
    rw [List.append_assoc]
    exact .key houter hdepth hbefore hnests (hw'.append hw)
  | colon houter hdepth hbefore hnests hkeyWs hkey hw' =>
    rw [List.append_assoc]
    exact .colon houter hdepth hbefore hnests hkeyWs hkey (hw'.append hw)
  | memberEnd houter hdepth hbefore hnests =>
    rw [List.append_assoc, List.cons_append]
    exact .memberEnd houter hdepth (hbefore.append_ws (by simp) hw) hnests
  | done h hnests => exact .done (h.append_ws (by simp) hw) hnests

/-! One character more. -/

theorem Context.Before.fill {place : Context} {tree : Tree} {p s : List Char} (h : place.Before p)
    (hs : Spelled (.value tree) s) (hnests : tree.NestsWithin (maxDepth - place.depth)) :
    (place.fill tree).After (p ++ s) := by
  cases h with
  | top hw => simpa using Gap.After.done (.element hw hs Ws.nil) hnests
  | @array start before outer p body w houter hdepth hbefore hnests' hw =>
    have hitems := hbefore.items (.element hw hs Ws.nil)
    have hall : ∀ item ∈ tree :: before, item.NestsWithin (maxDepth - (outer.depth + 1)) :=
      List.forall_mem_cons.mpr ⟨hnests, hnests'⟩
    rw [← List.reverse_cons] at hitems
    simpa using Gap.After.itemEnd houter hdepth hitems hall
  | @object start before key outer p body w w' w'' houter hdepth hbefore hnests' hw hkey hw' hw'' =>
    have hmembers := hbefore.members (.member hw hkey hw' (.element hw'' hs Ws.nil))
    have hall : ∀ m ∈ (key, tree) :: before, m.2.NestsWithin (maxDepth - (outer.depth + 1)) :=
      List.forall_mem_cons.mpr ⟨hnests, hnests'⟩
    rw [← List.reverse_cons] at hmembers
    simpa using Gap.After.memberEnd houter hdepth hmembers hall

theorem Context.Before.fill_scalar {place : Context} {p s : List Char} (h : place.Before p)
    (hs : Scalar s) : (place.fill (.scalar (String.ofList s))).After (p ++ s) := by
  obtain ⟨lexeme, rfl⟩ : ∃ lexeme : String, s = lexeme.toList := ⟨String.ofList s, by simp⟩
  simpa using h.fill (.scalar hs) .scalar

theorem StringRole.Before.fill {role : StringRole} {p s : List Char} (h : role.Before p)
    (hs : Quoted s) : (role.fill (String.ofList s)).After (p ++ s) := by
  cases h with
  | value h => exact h.fill_scalar (.string hs)
  | key h =>
    obtain ⟨key, rfl⟩ : ∃ key : String, s = key.toList := ⟨String.ofList s, by simp⟩
    cases h with
    | key houter hdepth hbefore hnests hw =>
      simpa [StringRole.fill] using Gap.After.colon houter hdepth hbefore hnests hw hs Ws.nil

theorem startValue_after {wanted : List Wanted} {place : Context} {offset : Nat} {c : Char}
    {p : List Char} {state : State} (h : place.Before p)
    (hstart : startValue wanted place offset c = .ok state) : state.After (p ++ [c]) := by
  unfold startValue at hstart
  split_ifs at hstart with harray hlt hobject hlt hquote hnull htrue hfalse
  · cases hstart
    exact harray ▸ .gap (.firstItem h hlt Ws.nil)
  · cases hstart
    have hbefore : MembersBefore (List.reverse []) [] := .none
    simpa [hobject] using State.After.gap (.key h hlt hbefore (by simp) Ws.nil)
  · cases hstart
    exact hquote ▸ .string (.value h) (.plain .nil)
  · cases hstart
    exact hnull ▸ .literal h rfl
  · cases hstart
    exact htrue ▸ .literal h rfl
  · cases hstart
    exact hfalse ▸ .literal h rfl
  · split at hstart
    · rename_i part hpart
      cases hstart
      exact .number h (.start hpart)
    · contradiction

theorem Tree.NestsWithin.array_of_lt {limit depth : Nat} {items : List Tree} (h : depth < limit)
    (hitems : ∀ item ∈ items, NestsWithin (limit - (depth + 1)) item) :
    NestsWithin (limit - depth) (.array items) := by
  have hsucc : limit - depth = limit - (depth + 1) + 1 := by omega
  exact hsucc ▸ .array hitems

theorem Tree.NestsWithin.object_of_lt {limit depth : Nat} {members : List (String × Tree)}
    (h : depth < limit) (hmembers : ∀ m ∈ members, NestsWithin (limit - (depth + 1)) m.2) :
    NestsWithin (limit - depth) (.object members) := by
  have hsucc : limit - depth = limit - (depth + 1) + 1 := by omega
  exact hsucc ▸ .object hmembers

theorem Gap.After.step {offset : Nat} {c : Char} {g : Gap} {s : List Char} {state : State}
    (h : g.After s) (hstep : g.step offset c = .ok state) : state.After (s ++ [c]) := by
  unfold Gap.step at hstep
  by_cases hspace : isSpace c = true
  · rw [if_pos hspace] at hstep
    cases hstep
    exact .gap (h.append_ws (ws_iff.mpr (by simpa using hspace)))
  rw [if_neg hspace] at hstep
  cases h with
  | value h => exact startValue_after h hstep
  | @firstItem start outer p w houter hdepth hw =>
    simp only at hstep
    split_ifs at hstep with hclose
    · cases hstep
      rw [List.append_assoc, hclose]
      exact .gap (houter.fill (.emptyArray hw) (.array_of_lt hdepth (by simp)))
    · have hbefore : ItemsBefore (List.reverse []) [] := .none
      have hplace : (Context.array start [] outer).Before (p ++ '[' :: w) := by
        simpa using Context.Before.array houter hdepth hbefore (by simp) hw
      exact startValue_after hplace hstep
  | @itemEnd start before outer p s houter hdepth hbefore hnests =>
    simp only at hstep
    split_ifs at hstep with hcomma hclose
    · cases hstep
      have hplace : (Context.array start before outer).Before (p ++ '[' :: (s ++ [',']) ++ []) :=
        .array houter hdepth (.some hbefore) hnests Ws.nil
      simpa [hcomma] using State.After.gap (.value hplace)
    · cases hstep
      have htree : Tree.NestsWithin (maxDepth - outer.depth) (.array before.reverse) :=
        .array_of_lt hdepth (by simpa using hnests)
      rw [List.append_assoc, hclose]
      exact .gap (houter.fill (.array hbefore) htree)
  | key houter hdepth hbefore hnests hw =>
    simp only at hstep
    split_ifs at hstep with hquote hempty hclose
    · cases hstep
      exact hquote ▸ .string (.key (.key houter hdepth hbefore hnests hw)) (.plain .nil)
    · cases hstep
      obtain rfl := List.isEmpty_iff.mp hempty
      obtain rfl := hbefore.eq_nil
      have hfill := houter.fill (.emptyObject hw) (.object_of_lt hdepth hnests)
      simpa [hclose] using State.After.gap hfill
  | @colon start before key outer p s w w' houter hdepth hbefore hnests hw hkey hw' =>
    simp only at hstep
    split_ifs at hstep with hcolon
    cases hstep
    have hplace : (Context.object start before key outer).Before _ :=
      .object houter hdepth hbefore hnests hw hkey hw' Ws.nil
    simpa [hcolon] using State.After.gap (.value hplace)
  | @memberEnd start before outer p s houter hdepth hbefore hnests =>
    simp only at hstep
    split_ifs at hstep with hcomma hclose
    · cases hstep
      have hkey : (Gap.key start before outer).After (p ++ '{' :: (s ++ [',']) ++ []) :=
        .key houter hdepth (.some hbefore) hnests Ws.nil
      simpa [hcomma] using State.After.gap hkey
    · cases hstep
      have htree : Tree.NestsWithin (maxDepth - outer.depth) (.object before.reverse) :=
        .object_of_lt hdepth (by simpa using hnests)
      rw [List.append_assoc, hclose]
      exact .gap (houter.fill (.object hbefore) htree)
  | done => contradiction

theorem State.After.snoc_string {role : StringRole} {start : Nat} {c : Char} {lexeme p : List Char}
    {part : StringPart} (hrole : role.Before p) (hpart : part.After (lexeme.reverse ++ [c])) :
    (State.string role start (c :: lexeme) part).After (p ++ lexeme.reverse ++ [c]) := by
  rw [List.append_assoc, ← List.reverse_cons]
  rw [← List.reverse_cons] at hpart
  exact .string hrole hpart

theorem mem_of_isShortEscape {c : Char} (h : isShortEscape c = true) :
    c ∈ ['"', '\\', '/', 'b', 'f', 'n', 'r', 't'] := by
  simpa [isShortEscape, or_assoc] using h

theorem stringStep_after {role : StringRole} {start offset : Nat} {c : Char}
    {lexeme p : List Char} {part : StringPart} {state : State} (hrole : role.Before p)
    (hpart : part.After lexeme.reverse)
    (hstep : stringStep role start lexeme offset c part = .ok state) :
    state.After (p ++ lexeme.reverse ++ [c]) := by
  generalize hread : lexeme.reverse = read at hpart
  cases hpart with
  | plain letters =>
    simp only [stringStep] at hstep
    split_ifs at hstep with hquote hbackslash hcontrol <;> cases hstep
    · have hquoted := hrole.fill (.quotes letters)
      simpa [hquote, hread] using State.After.gap hquoted
    · subst hbackslash
      exact hread ▸ .snoc_string hrole (hread ▸ .escape letters)
    · have hletter := letters.snoc (.plain (Nat.not_lt.mp hcontrol) hquote hbackslash)
      exact hread ▸ .snoc_string hrole (hread ▸ .plain hletter)
  | @escape s offset letters =>
    simp only [stringStep] at hstep
    split_ifs at hstep with hshort hcode <;> cases hstep
    · have hletter := letters.snoc (.escape (mem_of_isShortEscape hshort))
      exact hread ▸ .snoc_string hrole (by simpa [hread] using StringPart.After.plain hletter)
    · have hdue : (StringPart.hex offset 3).After ('"' :: s ++ '\\' :: 'u' :: []) :=
        .hex letters (by simp) rfl
      exact hread ▸ .snoc_string hrole (by simpa [hread, hcode] using hdue)
  | @hex s ds offset more letters digits due =>
    simp only [stringStep] at hstep
    split_ifs at hstep with hhex
    have hlast : ∀ d ∈ [c], HexDigit d := List.forall_mem_singleton.mpr (hexDigit_iff.mpr hhex)
    have hdigits : ∀ d ∈ ds ++ [c], HexDigit d := List.forall_mem_append.mpr ⟨digits, hlast⟩
    cases more with
    | zero =>
      cases hstep
      have hletter := letters.snoc (letter_codePoint hdigits (by simp; omega))
      exact hread ▸ .snoc_string hrole (by simpa [hread] using StringPart.After.plain hletter)
    | succ more =>
      cases hstep
      have hdue : (StringPart.hex offset more).After ('"' :: s ++ '\\' :: 'u' :: (ds ++ [c])) :=
        .hex letters hdigits (by simp; omega)
      exact hread ▸ .snoc_string hrole (by simpa [hread] using hdue)

theorem Literal.scalar (word : Literal) : Scalar word.spelling.toList := by
  cases word with
  | null => exact .null
  | «true» => exact .true
  | «false» => exact .false

theorem NumberPart.endError?_of_complete {offset : Nat} {c : Char} {part : NumberPart}
    (h : part.next offset c = .complete) : part.endError? = none := by
  cases part <;> simp only [NumberPart.next] at h <;> first | rfl | split_ifs at h

theorem State.After.step {offset : Nat} {c : Char} {state state' : State} {s : List Char}
    (h : state.After s) (hstep : state.step offset c = .ok state') : state'.After (s ++ [c]) := by
  cases h with
  | gap h => exact h.step hstep
  | string hrole hpart => exact stringStep_after hrole hpart hstep
  | @literal place word next rest p s hplace hword =>
    simp only [State.step] at hstep
    split_ifs at hstep with hnext
    subst hnext
    cases rest with
    | nil =>
      cases hstep
      have hfill := hplace.fill_scalar word.scalar
      rw [String.ofList_toList, hword, ← List.append_assoc] at hfill
      exact .gap hfill
    | cons next' rest =>
      cases hstep
      rw [List.append_assoc]
      exact .literal hplace (by simpa using hword)
  | @number place lexeme p part hplace hpart =>
    simp only [State.step] at hstep
    split at hstep
    · rename_i part' hnext
      cases hstep
      rw [List.append_assoc, ← List.reverse_cons]
      exact .number hplace (by simpa using hpart.next hnext)
    · contradiction
    · rename_i hcomplete
      have hnumber := hpart.number (NumberPart.endError?_of_complete hcomplete)
      exact (hplace.fill_scalar (.number hnumber)).step hstep

theorem State.After.run {offset : Nat} {state state' : State} {s t : List Char}
    (h : state.After s) (hrun : state.run offset t = .ok state') : state'.After (s ++ t) := by
  induction t generalizing offset state s with
  | nil =>
    cases hrun
    simpa using h
  | cons c t ih =>
    obtain ⟨next, hstep, hrest⟩ := run_cons_ok hrun
    simpa using ih (h.step hstep) hrest

theorem Gap.After.finish {g : Gap} {tree : Tree} {s : List Char} (h : g.After s)
    (hfinish : g.finish = .ok tree) :
    Spelled (.element tree) s ∧ tree.NestsWithin maxDepth := by
  cases h with
  | done h hnests =>
    cases hfinish
    exact ⟨h, hnests⟩
  | _ => contradiction

theorem State.After.finish {state : State} {tree : Tree} {s : List Char} (h : state.After s)
    (hfinish : state.finish = .ok tree) :
    Spelled (.element tree) s ∧ tree.NestsWithin maxDepth := by
  cases h with
  | gap h => exact h.finish hfinish
  | string => contradiction
  | literal => contradiction
  | number hplace hpart =>
    simp only [State.finish] at hfinish
    split at hfinish
    · contradiction
    · rename_i hend
      exact (hplace.fill_scalar (.number (hpart.number hend))).finish hfinish

/-- What is read as a tree spells that tree, which nests no deeper than it may. -/
theorem Tree.spelled_of_parse {tree : Tree} {s : List Char} (h : Tree.parse s = .ok tree) :
    Spelled (.element tree) s ∧ tree.NestsWithin maxDepth := by
  unfold Tree.parse at h
  split at h
  · rename_i state hrun
    have hstart : (State.gap (.value .top)).After [] := .gap (.value (.top Ws.nil))
    exact (hstart.run hrun).finish h
  · contradiction

end JsonLayout.Json
