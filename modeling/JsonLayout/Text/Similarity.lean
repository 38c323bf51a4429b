/-! # How alike two words are

Two words share a character where both have it at nearly the same place. They are the more alike
the more of their characters are shared and the fewer of the shared ones stand in another order. -/

namespace JsonLayout.Text

/-- Mark the first of some places that holds the character and is not marked yet: `skip` places are
passed over, the `count` next ones are tried. -/
def markFirst (c : Char) : Nat → Nat → List (Char × Bool) → Option (List (Char × Bool))
  | _, _, [] => none
  | skip + 1, count, place :: places => (place :: ·) <$> markFirst c skip count places
  | 0, 0, _ => none
  | 0, count + 1, (d, marked) :: places =>
      if d = c && !marked then some ((d, true) :: places)
      else ((d, marked) :: ·) <$> markFirst c 0 count places

/-- Each character from `position` on marks a place at most `reach` away. The result is the
characters that found one, in order, and all places afterwards. -/
def share (reach : Nat) (position : Nat) (places : List (Char × Bool)) :
    List Char → List Char × List (Char × Bool)
  | [] => ([], places)
  | c :: s =>
      let skip := position - reach
      match markFirst c skip (position + reach + 1 - skip) places with
      | none => share reach (position + 1) places s
      | some places' =>
          let (shared, final) := share reach (position + 1) places' s
          (c :: shared, final)

/-- From 0 for words that share nothing to 1 for equal words: the mean of the shares of both words
that are shared and the share of the shared characters that stand in order. -/
def similarity (a b : List Char) : Rat :=
  let reach := max a.length b.length / 2 - 1
  let (inFirst, places) := share reach 0 (b.map (·, false)) a
  let inSecond := (places.filter (·.2)).map (·.1)
  let common := inFirst.length
  let displaced := (inFirst.zip inSecond).countP fun (c, d) => c ≠ d
  let ordered := common - displaced / 2
  ((common : Rat) / a.length + common / b.length + ordered / common) / 3

end JsonLayout.Text
