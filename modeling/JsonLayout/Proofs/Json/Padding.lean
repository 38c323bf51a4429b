import JsonLayout.Proofs.Json.Positions

/-!
# Blanks around a text

Blanks in front of a text move all that its error says about places by their length in bytes, and
blanks behind it change nothing.
-/

namespace JsonLayout.Json

open Text (byteLength isBlank leadingBytes)

/-- The same without where a container starts. -/
def Surroundings.unplaced : Surroundings → Surroundings
  | .array _ => .array 0
  | .object _ => .object 0
  | .document => .document
  | .literal word => .literal word
  | .number => .number

/-- All that an error says but for offsets. -/
def ParseError.unplaced : ParseError → ParseError
  | .unexpected wanted inside _ found => .unexpected wanted inside.unplaced 0 found
  | .unexpectedEnd wanted inside => .unexpectedEnd wanted inside.unplaced
  | .trailing _ found => .trailing 0 found
  | .badEscape _ found => .badEscape 0 found
  | .badHexDigit _ _ found => .badHexDigit 0 0 found
  | .controlCharacter _ found => .controlCharacter 0 found
  | .unclosedString _ => .unclosedString 0
  | .leadingZero _ => .leadingZero 0
  | .secondPoint _ => .secondPoint 0
  | .emptyExponent _ => .emptyExponent 0
  | .badExponent _ found => .badExponent 0 found
  | .tooDeep _ => .tooDeep 0
  | .notUtf8 _ => .notUtf8 0

theorem Surroundings.eq_of_offsets {inside other : Surroundings}
    (hoffsets : inside.offsets = other.offsets) (hrest : inside.unplaced = other.unplaced) :
    inside = other := by
  cases inside <;> cases other <;> simp_all [offsets, unplaced]

/-- An error is told by its offsets and all the rest that it says. -/
theorem ParseError.eq_of_offsets {e e' : ParseError} (hoffsets : e.offsets = e'.offsets)
    (hrest : e.unplaced = e'.unplaced) : e = e' := by
  cases e <;> cases e' <;>
    simp only [unplaced, reduceCtorEq, unexpected.injEq, unexpectedEnd.injEq] at hrest
  case unexpected.unexpected wanted inside offset found wanted' inside' offset' found' =>
    obtain ⟨rfl, hinside, -, rfl⟩ := hrest
    obtain ⟨hstart, hoffset⟩ := List.append_inj' hoffsets rfl
    rw [Surroundings.eq_of_offsets hstart hinside, List.singleton_inj.1 hoffset]
  case unexpectedEnd.unexpectedEnd wanted inside wanted' inside' =>
    obtain ⟨rfl, hinside⟩ := hrest
    rw [Surroundings.eq_of_offsets hoffsets hinside]
  all_goals simp_all [offsets]

/-! Moving an error. -/

variable {e : ParseError}

theorem Surroundings.offsets_shift (inside : Surroundings) (bytes : Nat) :
    (inside.shift bytes).offsets = inside.offsets.map (· + bytes) := by
  cases inside <;> rfl

theorem Surroundings.unplaced_shift (inside : Surroundings) (bytes : Nat) :
    (inside.shift bytes).unplaced = inside.unplaced := by
  cases inside <;> rfl

theorem Surroundings.shift_shift (inside : Surroundings) (bytes more : Nat) :
    (inside.shift bytes).shift more = inside.shift (bytes + more) := by
  cases inside <;> simp [shift, Nat.add_assoc]

/-- Every offset is moved, unless it is one of the bytes before they are read as a text. -/
theorem ParseError.offsets_shift (he : ∀ offset, e ≠ .notUtf8 offset) (bytes : Nat) :
    (e.shift bytes).offsets = e.offsets.map (· + bytes) := by
  cases e with
  | notUtf8 offset => exact absurd rfl (he offset)
  | unexpected wanted inside offset found =>
    simp [shift, offsets, inside.offsets_shift]
  | unexpectedEnd wanted inside => exact inside.offsets_shift bytes
  | _ => rfl

theorem ParseError.shift_ne_notUtf8 (he : ∀ offset, e ≠ .notUtf8 offset) (bytes offset : Nat) :
    e.shift bytes ≠ .notUtf8 offset := by
  cases e with
  | notUtf8 start => exact absurd rfl (he start)
  | _ => simp [shift]

theorem ParseError.unplaced_shift (e : ParseError) (bytes : Nat) :
    (e.shift bytes).unplaced = e.unplaced := by
  cases e <;> simp [shift, unplaced, Surroundings.unplaced_shift]

theorem ParseError.shift_shift (e : ParseError) (bytes more : Nat) :
    (e.shift bytes).shift more = e.shift (bytes + more) := by
  cases e <;> simp [shift, Surroundings.shift_shift, Nat.add_assoc]

/-! Padding a text. -/

theorem trim_padded {w s w' : List Char} (hw : ∀ c ∈ w, isBlank c = true)
    (hw' : ∀ c ∈ w', isBlank c = true) : Text.trim (w ++ s ++ w') = Text.trim s := by
  rw [Text.trim_append_blanks _ hw', Text.trim_blanks_append hw]

/-- Only a text with something in it has an error with offsets, and its blanks in front are those of
the padded text and no others. -/
theorem shift_leadingBytes_padded {w s w' : List Char} (hw : ∀ c ∈ w, isBlank c = true)
    (h : Tree.parse (Text.trim s) = .error e) :
    e.shift (leadingBytes (w ++ s ++ w')) = (e.shift (leadingBytes s)).shift (byteLength w) := by
  by_cases hs : ∀ c ∈ s, isBlank c = true
  · rw [Text.trim_of_forall hs] at h
    obtain rfl : ParseError.unexpectedEnd [.value] .document = e := Except.error.inj h
    rfl
  · rw [List.append_assoc, Text.leadingBytes_blanks_append hw, Text.leadingBytes_append hs,
      ParseError.shift_shift, Nat.add_comm]

/-- Blanks around a text do not change its canonical form. If it has none, its error is the one that
has every offset moved by the bytes in front and says all the rest as before. -/
theorem format_padded {w w' : String} (hw : ∀ c ∈ w.toList, isBlank c = true)
    (hw' : ∀ c ∈ w'.toList, isBlank c = true) (s : String) :
    (∀ out, format s = .ok out → format (w ++ s ++ w') = .ok out) ∧
      ∀ e, format s = .error e → ∃ moved, format (w ++ s ++ w') = .error moved ∧
        ∀ e', e' = moved ↔
          e'.offsets = e.offsets.map (· + w.utf8ByteSize) ∧ e'.unplaced = e.unplaced := by
  have htrim : Text.trim (w ++ s ++ w').toList = Text.trim s.toList := by
    rw [String.toList_append, String.toList_append, trim_padded hw hw']
  refine ⟨fun out h => ?_, fun e h => ?_⟩
  · rw [format_eq_ok_iff] at h ⊢
    rwa [htrim]
  · obtain ⟨cause, hparse, rfl⟩ := format_eq_error_iff.1 h
    have hcause : ∀ offset, cause ≠ .notUtf8 offset := by
      rintro offset rfl
      exact ParseError.pointsInto_of_parse hparse
    have hoffsets := ParseError.offsets_shift
      (ParseError.shift_ne_notUtf8 hcause (leadingBytes s.toList)) w.utf8ByteSize
    have hrest := (cause.shift (leadingBytes s.toList)).unplaced_shift w.utf8ByteSize
    refine ⟨(cause.shift (leadingBytes s.toList)).shift w.utf8ByteSize, ?_, fun e' => ⟨?_, ?_⟩⟩
    · rw [format_eq_error_iff, htrim, String.toList_append, String.toList_append]
      refine ⟨cause, hparse, ?_⟩
      rw [shift_leadingBytes_padded hw hparse, Text.byteLength_toList]
    · rintro rfl
      exact ⟨hoffsets, hrest⟩
    · rintro ⟨hoffsets', hrest'⟩
      apply ParseError.eq_of_offsets
      · rw [hoffsets', hoffsets]
      · rw [hrest', hrest]

/-- Seven bytes stand in front, and the key has two bytes more than letters. -/
theorem format_padded_wide :
    let w := "\u3000\n\u2028"
    let s := " \x7b\"éé\" 1\x7d"
    format s = .error (.unexpected [.char ':'] (.object 1) 9 '1') ∧
      ∃ moved, format (w ++ s ++ "\u00a0") = .error moved ∧ moved.offsets = [8, 16] ∧
        moved.unplaced = .unexpected [.char ':'] (.object 0) 0 '1' := by
  intro w s
  have hformat : format s = .error (.unexpected [.char ':'] (.object 1) 9 '1') := by
    unfold s
    rfl
  have hfront : ∀ c ∈ w.toList, isBlank c = true := by
    unfold w
    exact List.all_eq_true.1 rfl
  have hback : ∀ c ∈ "\u00a0".toList, isBlank c = true := List.all_eq_true.1 rfl
  obtain ⟨moved, hmoved, honly⟩ := (format_padded hfront hback s).2 _ hformat
  exact ⟨hformat, moved, hmoved, (honly moved).1 rfl⟩

end JsonLayout.Json
