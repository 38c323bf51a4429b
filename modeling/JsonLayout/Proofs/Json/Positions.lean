import JsonLayout.Proofs.Json.Completing
import JsonLayout.Proofs.Json.Refusal
import JsonLayout.Proofs.Json.RoundTrip

/-!
# What errors point at

Each offset of an error is one where a character of the text starts, and what the error is about
stands there. This holds of the text as it was given, blanks around it included.
-/

namespace JsonLayout.Json

open Text (byteLength charAt? isBlank)

/-- Any scalar may come next: with it, the text can be completed to one that is accepted. -/
def MayStartValue (s : List Char) : Prop :=
  ∀ lexeme, Scalar lexeme → ∃ t out, format (String.ofList (s ++ lexeme ++ t)) = .ok out

def Surroundings.offsets : Surroundings → List Nat
  | .array start | .object start => [start]
  | .document | .literal _ | .number => []

def ParseError.offsets : ParseError → List Nat
  | .unexpected _ inside offset _ => inside.offsets ++ [offset]
  | .unexpectedEnd _ inside => inside.offsets
  | .badHexDigit escape offset _ => [escape, offset]
  | .trailing offset _ | .badEscape offset _ | .controlCharacter offset _ | .unclosedString offset
  | .leadingZero offset | .secondPoint offset | .emptyExponent offset | .badExponent offset _
  | .tooDeep offset | .notUtf8 offset => [offset]

/-- What the error is about stands in the text where the error says. -/
def ParseError.PointsInto (s : List Char) : ParseError → Prop
  | .unexpected _ inside offset c =>
      ∃ p r, s = p ++ c :: r ∧ byteLength p = offset ∧ inside.Innermost (scan p).opened
  | .unexpectedEnd _ inside => inside.Innermost (scan s).opened
  | .trailing offset c | .badEscape offset c | .controlCharacter offset c | .badExponent offset c =>
      charAt? s offset = some c
  | .badHexDigit escape offset c =>
      ∃ p ds r, s = p ++ '\\' :: 'u' :: ds ++ c :: r ∧ byteLength p = escape ∧
        byteLength (p ++ '\\' :: 'u' :: ds) = offset ∧ escape + 2 ≤ offset ∧ offset ≤ escape + 5 ∧
        (scan p).zone = .inside ∧ (∀ d ∈ ds, HexDigit d) ∧ ¬ HexDigit c
  | .unclosedString start => (scan s).quote = some start
  | .leadingZero offset =>
      ∃ q sign d r, s = q ++ sign ++ '0' :: d :: r ∧ byteLength (q ++ sign) = offset ∧
        MayStartValue q ∧ (sign = [] ∨ sign = ['-']) ∧ Digit d
  | .secondPoint offset =>
      ∃ q sign int ds r, s = q ++ (sign ++ int ++ '.' :: ds) ++ '.' :: r ∧
        byteLength (q ++ (sign ++ int ++ '.' :: ds)) = offset ∧
        MayStartValue q ∧ (sign = [] ∨ sign = ['-']) ∧ Integer int ∧ Digits ds
  | .emptyExponent offset =>
      ∃ q n d r, s = q ++ n ++ d :: r ∧ byteLength (q ++ n) = offset ∧
        MayStartValue q ∧ Number n ∧ (d = 'e' ∨ d = 'E')
  | .tooDeep offset => charAt? s offset = some '[' ∨ charAt? s offset = some '{'
  | .notUtf8 _ => False

/-! The offsets are inside of the text. -/

theorem Surroundings.Innermost.charAt? {inside : Surroundings} {s : List Char} {offset : Nat}
    (h : inside.Innermost (scan s).opened) (hoffset : offset ∈ inside.offsets) :
    ∃ c, Text.charAt? s offset = some c := by
  cases inside with
  | array start | object start =>
    obtain rfl := List.mem_singleton.mp hoffset
    exact ⟨_, charAt?_of_mem_opened (List.mem_of_mem_head? h)⟩
  | document | literal | number => cases hoffset

theorem ParseError.PointsInto.charAt? {s : List Char} {e : ParseError} {offset : Nat}
    (h : e.PointsInto s) (hoffset : offset ∈ e.offsets) : ∃ c, Text.charAt? s offset = some c := by
  have hsingle : ∀ {p r c start}, s = p ++ c :: r → byteLength p = start → offset ∈ [start] →
      ∃ c, Text.charAt? s offset = some c := by
    rintro p r c start rfl rfl hmem
    obtain rfl := List.mem_singleton.mp hmem
    exact ⟨c, Text.charAt?_length p (c :: r)⟩
  cases e with
  | unexpected wanted inside start c =>
    obtain ⟨p, r, rfl, rfl, hinside⟩ := h
    rcases List.mem_append.mp hoffset with hmem | hmem
    · obtain ⟨d, hd⟩ := hinside.charAt? hmem
      exact ⟨d, Text.charAt?_append_of_some hd _⟩
    · exact hsingle rfl rfl hmem
  | unexpectedEnd wanted inside => exact Surroundings.Innermost.charAt? h hoffset
  | trailing start c | badEscape start c | controlCharacter start c | badExponent start c =>
    obtain rfl := List.mem_singleton.mp hoffset
    exact ⟨c, h⟩
  | badHexDigit escape start c =>
    obtain ⟨p, ds, r, hs, hescape, hstart, -⟩ := h
    rcases List.mem_cons.mp hoffset with rfl | hmem
    · exact hsingle (hs.trans (List.append_assoc ..)) hescape (by simp)
    · exact hsingle hs hstart hmem
  | unclosedString start =>
    obtain rfl := List.mem_singleton.mp hoffset
    exact ⟨'"', charAt?_of_quote h⟩
  | leadingZero start =>
    obtain ⟨q, sign, d, r, hs, hstart, -⟩ := h
    exact hsingle hs hstart hoffset
  | secondPoint start =>
    obtain ⟨q, sign, int, ds, r, hs, hstart, -⟩ := h
    exact hsingle hs hstart hoffset
  | emptyExponent start =>
    obtain ⟨q, n, d, r, hs, hstart, -⟩ := h
    exact hsingle hs hstart hoffset
  | tooDeep start =>
    obtain rfl := List.mem_singleton.mp hoffset
    rcases h with h | h
    · exact ⟨'[', h⟩
    · exact ⟨'{', h⟩
  | notUtf8 => exact h.elim

/-! Blanks around a text. -/

section Blanks

variable {w w' s : List Char}

theorem MayStartValue.blanks_append (h : MayStartValue s) (hw : ∀ c ∈ w, isBlank c = true) :
    MayStartValue (w ++ s) := by
  intro lexeme hlexeme
  obtain ⟨t, out, hformat⟩ := h lexeme hlexeme
  obtain ⟨tree, hparse, hout⟩ := format_eq_ok_iff.mp hformat
  refine ⟨t, out, format_eq_ok_iff.mpr ⟨tree, ?_, hout⟩⟩
  rw [String.toList_ofList] at hparse ⊢
  rw [List.append_assoc w, List.append_assoc w, Text.trim_blanks_append hw]
  exact hparse

theorem Surroundings.Innermost.shift {inside : Surroundings} {k : Scan}
    (h : inside.Innermost k.opened) (bytes : Nat) :
    (inside.shift bytes).Innermost (k.shift bytes).opened := by
  cases inside with
  | document =>
    have hempty : k.opened = [] := h
    simp [Surroundings.shift, Innermost, Scan.shift, hempty]
  | array start | object start =>
    have hhead : k.opened.head? = some (start, _) := h
    simp [Surroundings.shift, Innermost, Scan.shift, hhead]
  | literal | number => trivial

theorem byteLength_blanks_append (w p : List Char) :
    byteLength (w ++ p) = byteLength p + byteLength w := by
  rw [Text.byteLength_append, Nat.add_comm]

theorem charAt?_blanks {offset : Nat} {c : Char} (h : charAt? s offset = some c)
    (w w' : List Char) : charAt? (w ++ s ++ w') (offset + byteLength w) = some c := by
  rw [List.append_assoc, Nat.add_comm, Text.charAt?_append_add]
  exact Text.charAt?_append_of_some h w'

/-- What an error points at stays where it is when blanks are put around the text. -/
theorem ParseError.PointsInto.blanks {e : ParseError} (h : e.PointsInto s)
    (hw : ∀ c ∈ w, isBlank c = true) (hw' : ∀ c ∈ w', isBlank c = true) :
    (e.shift (byteLength w)).PointsInto (w ++ s ++ w') := by
  have hplain : ∀ c ∈ w', Scan.Plain c := fun c hc => Scan.plain_of_isBlank (hw' c hc)
  cases e with
  | unexpected wanted inside offset c =>
    obtain ⟨p, r, rfl, rfl, hinside⟩ := h
    refine ⟨w ++ p, r ++ w', by simp, byteLength_blanks_append w p, ?_⟩
    rw [scan_blanks_append hw]
    exact hinside.shift _
  | unexpectedEnd wanted inside =>
    have hinside : inside.Innermost (scan s).opened := h
    change (inside.shift (byteLength w)).Innermost (scan (w ++ s ++ w')).opened
    rw [scan_append, Scan.opened_after_plain hplain, scan_blanks_append hw]
    exact hinside.shift _
  | trailing offset c | badEscape offset c | controlCharacter offset c | badExponent offset c =>
    exact charAt?_blanks h w w'
  | badHexDigit escape offset c =>
    obtain ⟨p, ds, r, rfl, rfl, rfl, hlow, hhigh, hzone, hds, hc⟩ := h
    have hoffset := byteLength_blanks_append w (p ++ '\\' :: 'u' :: ds)
    refine ⟨w ++ p, ds, r ++ w', by simp, byteLength_blanks_append w p, ?_, ?_, ?_, ?_, hds, hc⟩
    · rw [List.append_assoc, hoffset]
    · omega
    · omega
    · rw [scan_blanks_append hw]
      exact hzone
  | unclosedString start =>
    have hquote : (scan s).quote = some start := h
    have hquote' : (scan (w ++ s)).quote = some (start + byteLength w) := by
      rw [scan_blanks_append hw, Scan.shift, hquote]
      rfl
    change (scan (w ++ s ++ w')).quote = some (start + byteLength w)
    rw [scan_append, (Scan.quote_after_plain (zone_of_quote hquote') hplain).2, hquote']
  | leadingZero offset =>
    obtain ⟨q, sign, d, r, rfl, rfl, hplace, hsign, hd⟩ := h
    refine ⟨w ++ q, sign, d, r ++ w', by simp, ?_, hplace.blanks_append hw, hsign, hd⟩
    rw [List.append_assoc, byteLength_blanks_append]
  | secondPoint offset =>
    obtain ⟨q, sign, int, ds, r, rfl, rfl, hplace, hsign, hint, hds⟩ := h
    refine ⟨w ++ q, sign, int, ds, r ++ w', by simp, ?_, hplace.blanks_append hw, hsign, hint, hds⟩
    rw [List.append_assoc, byteLength_blanks_append]
  | emptyExponent offset =>
    obtain ⟨q, n, d, r, rfl, rfl, hplace, hn, hd⟩ := h
    refine ⟨w ++ q, n, d, r ++ w', by simp, ?_, hplace.blanks_append hw, hn, hd⟩
    rw [List.append_assoc, byteLength_blanks_append]
  | tooDeep offset => exact h.imp (charAt?_blanks · w w') (charAt?_blanks · w w')
  | notUtf8 => exact h

end Blanks

/-! What the reader's errors point at. -/

theorem Spelled.trim {tree : Tree} {s : List Char} (h : Spelled (.element tree) s) :
    Spelled (.value tree) (Text.trim s) := by
  have hblank : ∀ {w : List Char}, Ws w → ∀ c ∈ w, isBlank c = true :=
    fun hw c hc => isBlank_of_isSpace (ws_iff.mp hw c hc)
  cases h with
  | element hw h hw' =>
    rw [h.solid.trim_append (hblank hw) (hblank hw')]
    exact h

theorem exists_format_of_parse {tree : Tree} {s : List Char} (h : Tree.parse s = .ok tree) :
    ∃ out, format (String.ofList s) = .ok out := by
  obtain ⟨hspelled, hnests⟩ := Tree.spelled_of_parse h
  refine ⟨tree.layout, format_eq_ok_iff.mpr ⟨tree, ?_, rfl⟩⟩
  rw [String.toList_ofList]
  exact hspelled.trim.element_of_value.parse_eq_ok hnests

theorem Context.Before.mayStartValue {place : Context} {s : List Char} (h : place.Before s) :
    MayStartValue s := by
  intro lexeme hlexeme
  obtain ⟨t, tree, hparse⟩ := h.completable hlexeme
  exact ⟨t, exists_format_of_parse hparse⟩

variable {p r : List Char} {c : Char} {state : State} {e : ParseError}

theorem State.Refuses.pointsInto (hafter : state.After p) (hagrees : state.Agrees (scan p))
    (h : state.Refuses (byteLength p) c e) : e.PointsInto (p ++ c :: r) := by
  have hc : charAt? (p ++ c :: r) (byteLength p) = some c := Text.charAt?_length p (c :: r)
  cases h with
  | unexpected _ h => exact ⟨p, r, rfl, rfl, hagrees.opened ▸ h⟩
  | trailing | trailingNumber | controlCharacter | badEscape | badExponent => exact hc
  | tooDeep _ _ hbracket =>
    rcases hbracket with rfl | rfl
    · exact .inl hc
    · exact .inr hc
  | badHexDigit hdigit =>
    obtain ⟨q, ds, hp, hescape, hzone, hds, hdue⟩ := hafter.exists_hex hagrees
    obtain ⟨-, -, -, hends⟩ := hagrees
    rw [bytes_scan] at hends
    simp only [StringPart.EndsAt] at hends
    refine ⟨q, ds, r, by rw [hp], hescape, by rw [hp], by omega, by omega, ?_, hds, hdigit⟩
    rw [zone_scan, hzone]
  | leadingZero hd =>
    obtain ⟨q, sign, hplace, hsign, rfl, hstart⟩ := hafter.exists_zero hagrees
    exact ⟨q, sign, c, r, by simp, hstart, hplace.mayStartValue, hsign, hd⟩
  | secondPoint hpoint =>
    obtain ⟨q, sign, int, ds, hplace, hsign, hint, hds, rfl⟩ := hafter.exists_fraction
    exact ⟨q, sign, int, ds, r, by simp [hpoint], rfl, hplace.mayStartValue, hsign, hint, hds⟩
  | emptyExponent =>
    obtain ⟨q, n, d, hplace, hn, hd, rfl, hstart⟩ := hafter.exists_exponent hagrees
    exact ⟨q, n, d, c :: r, by simp, hstart, hplace.mayStartValue, hn, hd⟩
  | signedEmptyExponent =>
    obtain ⟨q, n, d, sign, hplace, hn, hd, -, rfl, hstart⟩ := hafter.exists_exponentSign hagrees
    exact ⟨q, n, d, sign :: c :: r, by simp, hstart, hplace.mayStartValue, hn, hd⟩

theorem State.Lacks.pointsInto (hafter : state.After p) (hagrees : state.Agrees (scan p))
    (h : state.Lacks e) : e.PointsInto p := by
  cases h with
  | @unexpectedEnd _ _ inside _ h =>
    change inside.Innermost (scan p).opened
    rwa [hagrees.opened]
  | unclosedString => exact hagrees.2.2.1
  | emptyExponent =>
    obtain ⟨q, n, d, hplace, hn, hd, rfl, hstart⟩ := hafter.exists_exponent hagrees
    exact ⟨q, n, d, [], by simp, hstart, hplace.mayStartValue, hn, hd⟩
  | signedEmptyExponent =>
    obtain ⟨q, n, d, sign, hplace, hn, hd, -, rfl, hstart⟩ := hafter.exists_exponentSign hagrees
    exact ⟨q, n, d, [sign], by simp, hstart, hplace.mayStartValue, hn, hd⟩

theorem ParseError.pointsInto_of_parse {s : List Char} (h : Tree.parse s = .error e) :
    e.PointsInto s := by
  rcases Tree.parse_error_cases h with ⟨p, c, r, state, rfl, hrun, hstep⟩ | ⟨state, hrun, hfinish⟩
  · exact (State.refuses_of_step hstep).pointsInto (State.after_of_run hrun)
      (State.agrees_of_run hrun)
  · exact (State.lacks_of_finish hfinish).pointsInto (State.after_of_run hrun)
      (State.agrees_of_run hrun)

theorem format_eq_error_iff {s : String} : format s = .error e ↔
    ∃ cause, Tree.parse (Text.trim s.toList) = .error cause ∧
      cause.shift (Text.leadingBytes s.toList) = e := by
  unfold format
  cases Tree.parse (Text.trim s.toList) with
  | ok tree => simp
  | error cause => simp

/-- Every offset of an error is one where a character of the text starts, blanks in front included,
and what the error is about stands there. -/
theorem format_error_points_into_text {s : String} (h : format s = .error e) :
    (∀ offset ∈ e.offsets, ∃ c, charAt? s.toList offset = some c) ∧ e.PointsInto s.toList := by
  have hpoints : e.PointsInto s.toList := by
    obtain ⟨cause, hparse, rfl⟩ := format_eq_error_iff.mp h
    obtain ⟨w, w', hs, hw, hw', hlength⟩ := Text.exists_trim s.toList
    have hblanks := (ParseError.pointsInto_of_parse hparse).blanks hw hw'
    rwa [← hs, hlength] at hblanks
  exact ⟨fun offset hoffset => hpoints.charAt? hoffset, hpoints⟩

theorem format_error_points_into_text_padded :
    let s := "\u3000[\"é\\u0g\"]"
    let e := ParseError.badHexDigit 7 10 'g'
    format s = .error e ∧ (∀ offset ∈ e.offsets, ∃ c, charAt? s.toList offset = some c) ∧
      e.PointsInto s.toList := by
  intro s e
  have h : format s = .error e := by
    unfold s e
    rfl
  exact ⟨h, format_error_points_into_text h⟩

end JsonLayout.Json
