import JsonLayout.Diff.Edit

/-! # Hunks

What stands between two runs of kept lines is one change, its removals before its additions. A
hunk is a list of changes no more than twice the context apart, with the context around them. -/

namespace JsonLayout.Diff

/-- A run of kept lines or a change, with its place in the two texts. -/
inductive Block where
  | same (old new : Nat) (lines : List String)
  | change (old new : Nat) (removed added : List String)

namespace Block

def old : Block → Nat
  | .same old _ _ => old
  | .change old _ _ _ => old

def new : Block → Nat
  | .same _ new _ => new
  | .change _ new _ _ => new

def oldLines : Block → List String
  | .same _ _ lines => lines
  | .change _ _ removed _ => removed

def newLines : Block → List String
  | .same _ _ lines => lines
  | .change _ _ _ added => added

/-- Put an edit in front. A change takes its old place from its first removal and its new place
from its first addition, if it has them. -/
def cons (e : Edit) : List Block → List Block
  | .same old new lines :: rest =>
      match e.kind with
      | .kept => .same e.old e.new (e.lines ++ lines) :: rest
      | .removed => .change e.old e.new e.lines [] :: .same old new lines :: rest
      | .added => .change e.old e.new [] e.lines :: .same old new lines :: rest
  | .change old new removed added :: rest =>
      match e.kind with
      | .kept => .same e.old e.new e.lines :: .change old new removed added :: rest
      | .removed =>
          .change e.old (if added.isEmpty then e.new else new) (e.lines ++ removed) added :: rest
      | .added =>
          .change (if removed.isEmpty then e.old else old) e.new removed (e.lines ++ added) :: rest
  | [] =>
      match e.kind with
      | .kept => [.same e.old e.new e.lines]
      | .removed => [.change e.old e.new e.lines []]
      | .added => [.change e.old e.new [] e.lines]

def ofScript (s : Script) : List Block := s.foldr cons []

/-- Lines of context around a change. -/
def context : Nat := 3

/-- The context that comes after a change. -/
def leading : Block → Block
  | .same old new lines => .same old new (lines.take context)
  | b => b

/-- The context that comes before a change. -/
def trailing : Block → Block
  | .same old new lines =>
      let skipped := lines.length - context
      .same (old + skipped) (new + skipped) (lines.drop skipped)
  | b => b

/-- Cut what the text starts with to the context of the first change. -/
def trimFirst : List Block → List Block
  | [] => []
  | b :: rest => b.trailing :: rest

/-- Cut what the text ends with to the context of the last change. -/
def trimLast : List Block → List Block
  | [] => []
  | [b] => [b.leading]
  | b :: rest => b :: trimLast rest

end Block

abbrev Hunk := List Block

namespace Hunk

/-- Cut between changes that are more than two contexts apart. `current` holds the blocks of the
open hunk, latest first. -/
def cut (current : List Block) : List Block → List Hunk
  | [] =>
      match current with
      | [] | [.same ..] => []
      | _ => [current.reverse]
  | .same old new lines :: rest =>
      let b := Block.same old new lines
      if 2 * Block.context < lines.length then
        (b.leading :: current).reverse :: cut [b.trailing] rest
      else cut (b :: current) rest
  | b :: rest => cut (b :: current) rest

def ofScript (s : Script) : List Hunk :=
  cut [] (Block.trimLast (Block.trimFirst (Block.ofScript s)))

end Hunk

end JsonLayout.Diff
