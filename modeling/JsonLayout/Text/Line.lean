/-! # Lines

A line ends after a line feed, a carriage return with a line feed, or a lone carriage return, and
keeps its end. What follows the last end is a line too, unless it is empty. -/

namespace JsonLayout.Text

/-- `done` holds the finished lines, latest first, and `line` the open one, last character first. -/
def linesFrom (done : List String) (line : List Char) : List Char → List String
  | [] => (if line.isEmpty then done else String.ofList line.reverse :: done).reverse
  | '\r' :: '\n' :: rest =>
      linesFrom (String.ofList ('\n' :: '\r' :: line).reverse :: done) [] rest
  | c :: rest =>
      if c = '\n' || c = '\r' then linesFrom (String.ofList (c :: line).reverse :: done) [] rest
      else linesFrom done (c :: line) rest

def lines (s : String) : List String := linesFrom [] [] s.toList

/-- Only the last line of a text can lack its end. -/
def endsLine (line : String) : Bool :=
  match line.toList.getLast? with
  | some c => c = '\n' || c = '\r'
  | none => false

end JsonLayout.Text
