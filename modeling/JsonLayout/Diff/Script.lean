import JsonLayout.Diff.Edit
import JsonLayout.Diff.Division

/-! # From two texts to a script

What is common at both ends is kept; the rest is divided and each part treated the same way, until
one side is empty. -/

namespace JsonLayout.Diff

/-- Two lists of lines with what they have in common at the start and then at the end taken off. -/
structure Frame (a b : List String) where
  front : List String
  left : List String
  right : List String
  back : List String
  old : front ++ left ++ back = a
  new : front ++ right ++ back = b
  apart : left ≠ [] → right ≠ [] → Apart left.toArray right.toArray

namespace Frame

variable {a b : List String}

/-- Lists that start differently are apart when their common end is taken off. -/
theorem apart_of_ne (hfirst : a ≠ [] → b ≠ [] → a[0]? ≠ b[0]?)
    (ha : commonSuffix a b < a.length) (hb : commonSuffix a b < b.length) :
    Apart (a.take (a.length - commonSuffix a b)).toArray
      (b.take (b.length - commonSuffix a b)).toArray where
  old := by
    simp
    omega
  new := by
    simp
    omega
  first := by
    have h := hfirst (List.ne_nil_of_length_pos (by omega)) (List.ne_nil_of_length_pos (by omega))
    rwa [List.getElem?_toArray, List.getElem?_toArray, List.getElem?_take_of_lt (by omega),
      List.getElem?_take_of_lt (by omega)]
  last := by
    have h := commonSuffix_stops a b ha hb
    have hlast : ∀ l : List String, commonSuffix a b < l.length →
        (l.take (l.length - commonSuffix a b)).toArray[
          (l.take (l.length - commonSuffix a b)).toArray.size - 1]? =
        l[l.length - 1 - commonSuffix a b]? := by
      intro l hl
      simp only [List.size_toArray, List.length_take, List.getElem?_toArray]
      rw [List.getElem?_take_of_lt (by omega)]
      congr 1
      omega
    rwa [hlast a ha, hlast b hb]

def of (a b : List String) : Frame a b :=
  let n := commonPrefix a b
  let m := commonSuffix (a.drop n) (b.drop n)
  { front := a.take n
    left := (a.drop n).take ((a.drop n).length - m)
    right := (b.drop n).take ((b.drop n).length - m)
    back := (a.drop n).drop ((a.drop n).length - m)
    old := by rw [List.append_assoc, List.take_append_drop, List.take_append_drop]
    new := by
      rw [show a.take n = b.take n from take_commonPrefix a b,
        show (a.drop n).drop _ = (b.drop n).drop _ from drop_commonSuffix _ _,
        List.append_assoc, List.take_append_drop, List.take_append_drop]
    apart := by
      intro hleft hright
      have hfirst : a.drop n ≠ [] → b.drop n ≠ [] → (a.drop n)[0]? ≠ (b.drop n)[0]? := by
        intro ha hb
        have h := commonPrefix_stops a b (by simpa using ha) (by simpa using hb)
        simpa [n] using h
      refine apart_of_ne hfirst ?_ ?_
      · have h := List.length_pos_iff.2 hleft
        simp only [List.length_take] at h
        omega
      · have h := List.length_pos_iff.2 hright
        simp only [List.length_take] at h
        omega }

end Frame

/-- The script from `a` to `b`, which start at line `old` and line `new` of the whole texts. -/
def script (old new : Nat) (a b : List String) : Script :=
  let f := Frame.of a b
  let old' := old + f.front.length
  let new' := new + f.front.length
  let middle :=
    if hright : f.right = [] then Script.single .removed f.left old' new'
    else if hleft : f.left = [] then Script.single .added f.right old' new'
    else
      match divide f.left.toArray f.right.toArray (f.apart hleft hright) with
      | ⟨(x, y), _⟩ =>
          script old' new' (f.left.take x) (f.right.take y) ++
          script (old' + x) (new' + y) (f.left.drop x) (f.right.drop y)
  Script.single .kept f.front old new ++ middle ++
  Script.single .kept f.back (old' + f.left.length) (new' + f.right.length)
termination_by a.length + b.length
decreasing_by
  all_goals
    rename_i hdivides
    obtain ⟨hx, hy, hpos, hlt⟩ := hdivides
    have hold := congrArg List.length (Frame.of a b).old
    have hnew := congrArg List.length (Frame.of a b).new
    simp only [f, List.size_toArray, List.length_append, List.length_take, List.length_drop] at *
    omega

end JsonLayout.Diff
