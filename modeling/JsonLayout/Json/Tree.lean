/-! # JSON trees

Scalars and keys are kept exactly as they are spelled, strings with their quotes and escapes, so a
tree can be written back without respelling anything. Members keep their order and may repeat a
key. -/

namespace JsonLayout.Json

inductive Tree where
  | scalar (lexeme : String)
  | array (items : List Tree)
  | object (members : List (String × Tree))
  deriving Inhabited

/-- Arrays and objects may stand inside at most this many others, themselves included. -/
def maxDepth : Nat := 512

end JsonLayout.Json
