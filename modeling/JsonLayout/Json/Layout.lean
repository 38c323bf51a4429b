import JsonLayout.Json.Tree

/-! # The canonical layout

Every item and member stands on a line of its own, two spaces deeper than what encloses it; empty
containers stay on one line, and one line feed ends the text. -/

namespace JsonLayout.Json

/-- A line feed and two spaces for each open container. -/
def newLine (depth : Nat) : String := String.ofList ('\n' :: List.replicate (2 * depth) ' ')

mutual

/-- Append a tree that stands inside `depth` containers. -/
def Tree.write (out : String) (depth : Nat) : Tree → String
  | .scalar lexeme => out ++ lexeme
  | .array [] => out ++ "[]"
  | .array (item :: items) =>
      let first := item.write (out ++ "[" ++ newLine (depth + 1)) (depth + 1)
      writeItems first depth items ++ newLine depth ++ "]"
  | .object [] => out ++ "\x7b\x7d"
  | .object ((key, value) :: members) =>
      let first := value.write (out ++ "\x7b" ++ newLine (depth + 1) ++ key ++ ": ") (depth + 1)
      writeMembers first depth members ++ newLine depth ++ "\x7d"

/-- The items after the first one of an array that stands inside `depth` containers. -/
def writeItems (out : String) (depth : Nat) : List Tree → String
  | [] => out
  | item :: items =>
      writeItems (item.write (out ++ "," ++ newLine (depth + 1)) (depth + 1)) depth items

/-- The members after the first one of an object that stands inside `depth` containers. -/
def writeMembers (out : String) (depth : Nat) : List (String × Tree) → String
  | [] => out
  | (key, value) :: members =>
      writeMembers (value.write (out ++ "," ++ newLine (depth + 1) ++ key ++ ": ") (depth + 1))
        depth members

end

def Tree.layout (tree : Tree) : String := tree.write "" 0 ++ "\n"

end JsonLayout.Json
