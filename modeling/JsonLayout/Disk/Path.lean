/-! # Paths

A path is what stands between its slashes, so that every text is the text of one path. Empty
segments are kept: a first one makes a path absolute, a last one is a slash at the end. -/

namespace JsonLayout

/-- `last` is the segment after the last slash; `before` are the segments before it, nearest
first. -/
structure Path where
  last : String
  before : List String
  deriving DecidableEq

namespace Path

/-- `segment` holds what has been read since the last slash, last character first. -/
def ofCharsFrom (before : List String) (segment : List Char) : List Char → Path
  | [] => ⟨String.ofList segment.reverse, before⟩
  | c :: rest =>
      if c = '/' then ofCharsFrom (String.ofList segment.reverse :: before) [] rest
      else ofCharsFrom before (c :: segment) rest

def ofString (s : String) : Path := ofCharsFrom [] [] s.toList

/-- From the first segment to the last. -/
def segments (p : Path) : List String := (p.last :: p.before).reverse

def text (p : Path) : String := "/".intercalate p.segments

/-- Bytes of segments, each with a slash after it. -/
def closedBytes : List String → Nat
  | [] => 0
  | s :: rest => s.utf8ByteSize + 1 + closedBytes rest

/-- Length of the text in UTF-8. -/
def byteLength (p : Path) : Nat := p.last.utf8ByteSize + closedBytes p.before

def isAbsolute (p : Path) : Bool := p.before.getLast? = some ""

/-- The path ends in a slash, or is empty. -/
def endsOpen (p : Path) : Bool := p.last = ""

/-- The entry `name` of the directory `p`. -/
def push (p : Path) (name : String) : Path :=
  if p.endsOpen then ⟨name, p.before⟩ else ⟨name, p.last :: p.before⟩

/-- The path without its last segment, if it has another one. -/
def parent? (p : Path) : Option Path :=
  match p.before with
  | [] => none
  | s :: rest => some ⟨s, rest⟩

/-- The path is the working directory under its plain name: `.`, perhaps with more dots and
slashes after it. -/
def isHere (p : Path) : Bool :=
  match p.segments with
  | s :: rest => s = "." && rest.all fun t => t = "" || t = "."
  | [] => false

theorem mem_segments_push (p : Path) (name : String) : name ∈ (p.push name).segments := by
  unfold push segments
  split <;> simp

theorem byteLength_push (p : Path) (name : String) :
    (p.push name).byteLength =
      p.byteLength + name.utf8ByteSize + if p.endsOpen then 0 else 1 := by
  unfold push byteLength
  by_cases h : p.last = ""
  · simp [endsOpen, h]
    omega
  · simp [endsOpen, h, closedBytes]
    omega

/-- `push`, but without a name for the working directory in front. -/
def enter (p : Path) (name : String) : Path := if p.isHere then ⟨name, []⟩ else p.push name

/-- The bytes of the path, none for the working directory. -/
def weight (p : Path) : Nat := if p.isHere then 0 else p.byteLength

theorem weight_le_byteLength (p : Path) : p.weight ≤ p.byteLength := by
  unfold weight
  split <;> omega

theorem eq_dot_of_isHere {p : Path} (h : p.isHere = true) {s : String} (hs : s ∈ p.segments) :
    s = "" ∨ s = "." := by
  unfold isHere at h
  split at h
  · rename_i t rest heq
    simp only [heq, List.mem_cons] at hs
    simp only [Bool.and_eq_true, decide_eq_true_eq, List.all_eq_true, Bool.or_eq_true] at h
    rcases hs with rfl | hs
    · exact .inr h.1
    · exact h.2 s hs
  · simp at h

theorem weight_lt_enter (p : Path) {name : String} (hname : name ≠ "") (hdot : name ≠ ".") :
    p.weight < (p.enter name).weight := by
  have away : ∀ q : Path, name ∈ q.segments → q.isHere = false := fun q hq =>
    Bool.eq_false_iff.2 fun h => (eq_dot_of_isHere h hq).elim hname hdot
  have hpos : 0 < name.utf8ByteSize :=
    Nat.pos_of_ne_zero fun h => hname (String.utf8ByteSize_eq_zero_iff.1 h)
  unfold enter
  by_cases h : p.isHere
  · simp only [h, if_true, weight, away ⟨name, []⟩ (by simp [segments]), byteLength,
      closedBytes]
    simp [hpos]
  · rw [if_neg h, weight, weight, if_neg h, if_neg (by simp [away _ (mem_segments_push p name)]),
      byteLength_push]
    omega

end Path

end JsonLayout
