import JsonLayout.Proofs.Diff.Unified

/-!
# Reading a diff

A reader takes the lines of a diff for headers with two ranges, for marked lines, or for notes that
the line before has no end. Applying a diff needs less: of each header only where its old lines
start.
-/

namespace JsonLayout.Diff

/-- A hunk as it is read: where its lines start in both texts, how many there are to be, and what
they are. -/
structure ReadHunk where
  oldStart : Nat
  oldLength : Nat
  newStart : Nat
  newLength : Nat
  lines : List Line

/-- The hunks stand in a list of lines in their order, with kept lines between them, and of each hunk
`P` holds together with the lines before and after it. -/
inductive Along (P : List Line → ReadHunk → List Line → Prop) :
    List Line → List Line → List ReadHunk → Prop
  | rest {before gap : List Line} (hgap : ∀ l ∈ gap, l.kind = .kept) : Along P before gap []
  | hunk {before gap after : List Line} {h : ReadHunk} {hunks : List ReadHunk}
      (hgap : ∀ l ∈ gap, l.kind = .kept) (hP : P (before ++ gap) h after)
      (hrest : Along P (before ++ gap ++ h.lines) after hunks) :
      Along P before (gap ++ h.lines ++ after) (h :: hunks)

namespace Patch

/-- The number at the start of a text. -/
def number? (s : List Char) : Option (Nat × List Char) :=
  let digits := s.takeWhile Char.isDigit
  if digits.isEmpty then none
  else some (Nat.ofDigitChars 10 digits 0, s.dropWhile Char.isDigit)

/-- A start and a length, which is one if it is left out. -/
def range? (s : List Char) : Option ((Nat × Nat) × List Char) :=
  match number? s with
  | some (start, ',' :: rest) =>
      match number? rest with
      | some (length, rest) => some ((start, length), rest)
      | none => none
  | some (start, rest) => some ((start, 1), rest)
  | none => none

/-- The two ranges of a header. -/
def header? : List Char → Option ((Nat × Nat) × (Nat × Nat))
  | '@' :: '@' :: ' ' :: '-' :: rest =>
      match range? rest with
      | some (old, ' ' :: '+' :: rest) =>
          match range? rest with
          | some (new, [' ', '@', '@', '\n']) => some (old, new)
          | _ => none
      | _ => none
  | _ => none

def kind? (mark : Char) : Option EditKind :=
  if mark = ' ' then some .kept
  else if mark = '-' then some .removed
  else if mark = '+' then some .added
  else none

/-- A marked line. If a note follows, the line feed is not its own. -/
def marked? (noted : Bool) : List Char → Option Line
  | mark :: text =>
      (kind? mark).map fun kind =>
        ⟨kind, String.ofList (if noted then text.dropLast else text)⟩
  | [] => none

def isNote (line : String) : Bool := line.toList.head? = some '\\'

/-- The marked lines at the start, and the hunks after them. -/
def readFrom? : List String → Option (List Line × List ReadHunk)
  | [] => some ([], [])
  | line :: rest =>
      match readFrom? rest with
      | some (lines, hunks) =>
          if isNote line then some (lines, hunks)
          else
            match header? line.toList with
            | some (old, new) => some ([], ⟨old.1, old.2, new.1, new.2, lines⟩ :: hunks)
            | none =>
                (marked? (rest.head?.any isNote) line.toList).map fun l => (l :: lines, hunks)
      | none => none

/-- The hunks of a diff, which come after two lines with the names of the texts. -/
def hunks? : List String → Option (List ReadHunk)
  | oldName :: newName :: rest =>
      if oldName = "--- Original\n" ∧ newName = "+++ Formatted\n" then
        match readFrom? rest with
        | some ([], hunks) => some hunks
        | _ => none
      else none
  | _ => none

/-- The old start of a header, of which the first four characters have been read. -/
def oldStart? (s : List Char) : Option Nat :=
  match number? s with
  | some (start, ',' :: _) => some start
  | some (start, ' ' :: _) => some start
  | _ => none

/-- Go through the lines of a diff, with the number of old lines passed so far, those that are left,
the last mark and what has been written. -/
def applyFrom (passed : Nat) (left : List String) (mark : Char) (out : String) :
    List String → Option String
  | [] => some (out ++ String.join left)
  | line :: diff =>
      match line.toList with
      | '@' :: '@' :: ' ' :: '-' :: header =>
          match oldStart? header with
          | some start =>
              let gap := start - 1 - passed
              if left.length < gap then none
              else applyFrom (passed + gap) (left.drop gap) mark
                (out ++ String.join (left.take gap)) diff
          | none => none
      | ' ' :: text =>
          match left with
          | _ :: left => applyFrom (passed + 1) left ' ' (out ++ String.ofList text) diff
          | [] => none
      | '-' :: _ =>
          match left with
          | _ :: left => applyFrom (passed + 1) left '-' out diff
          | [] => none
      | '+' :: text => applyFrom passed left '+' (out ++ String.ofList text) diff
      | '\\' :: _ =>
          applyFrom passed left mark
            (if mark = '-' then out else String.ofList out.toList.dropLast) diff
      | _ => none

/-- What the lines of a diff make of the lines of the old text: the lines before a hunk are copied,
then those of the hunk are kept, skipped or added, and the rest is copied after the last hunk. -/
def apply (old diff : List String) : Option String := applyFrom 0 old ' ' "" (diff.drop 2)

theorem number?_digits (n : Nat) {c : Char} (hc : c.isDigit = false) (rest : List Char) :
    number? (Nat.toDigits 10 n ++ c :: rest) = some (n, c :: rest) := by
  have hdigits : ∀ d ∈ Nat.toDigits 10 n, d.isDigit = true := fun d hd =>
    Nat.isDigit_of_mem_toDigits (by decide) (by decide) hd
  rw [number?, List.takeWhile_append_of_pos hdigits, List.dropWhile_append_of_pos hdigits,
    List.takeWhile_cons_of_neg (by simp [hc]), List.dropWhile_cons_of_neg (by simp [hc]),
    List.append_nil, Nat.ofDigitChars_ten_toDigits]
  simp [Nat.toDigits_ne_nil]

/-- The start that a header gives for lines `start` to `stop`, counted from one unless there are no
such lines. -/
def startNumber (start stop : Nat) : Nat := if stop - start = 0 then start else start + 1

/-- A range as it is printed: its start, and its length or nothing. -/
theorem rangeText_toList (start stop : Nat) : (rangeText start stop).toList =
    Nat.toDigits 10 (startNumber start stop) ++
      if stop - start = 1 then [] else ',' :: Nat.toDigits 10 (stop - start) := by
  unfold rangeText startNumber
  by_cases hone : stop - start = 1
  · simp [hone]
  · by_cases hzero : stop - start = 0
    · have htext : (toString ",0").toList = [',', '0'] := rfl
      have hdigits : Nat.toDigits 10 0 = ['0'] := rfl
      simp [hzero, htext, hdigits]
    · have htext : (toString ",").toList = [','] := rfl
      simp [hone, hzero, htext]

theorem range?_rangeText (start stop : Nat) (rest : List Char) :
    range? ((rangeText start stop).toList ++ ' ' :: rest) =
      some ((startNumber start stop, stop - start), ' ' :: rest) := by
  have hcomma : ','.isDigit = false := rfl
  have hspace : ' '.isDigit = false := rfl
  rw [rangeText_toList]
  by_cases hone : stop - start = 1
  · simp [hone, range?, number?_digits _ hspace]
  · simp [hone, range?, number?_digits _ hspace, number?_digits _ hcomma]

theorem oldStart?_rangeText (start stop : Nat) (rest : List Char) :
    oldStart? ((rangeText start stop).toList ++ ' ' :: rest) = some (startNumber start stop) := by
  have hcomma : ','.isDigit = false := rfl
  have hspace : ' '.isDigit = false := rfl
  rw [rangeText_toList]
  by_cases hone : stop - start = 1
  · simp [hone, oldStart?, number?_digits _ hspace]
  · simp [hone, oldStart?, number?_digits _ hcomma]

end Patch

end JsonLayout.Diff
