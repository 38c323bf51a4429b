import JsonLayout.Text.Similarity

/-! # Flags

What the command can be told besides globs. A flag is given by its name after two dashes, and most
of them by a letter after one. -/

namespace JsonLayout.Command

inductive Flag where
  | write | verbose | version | help
  deriving DecidableEq

namespace Flag

/-- In the order in which they are explained. -/
def all : List Flag := [.write, .verbose, .version, .help]

def name : Flag → String
  | .write => "write"
  | .verbose => "verbose"
  | .version => "version"
  | .help => "help"

def letter? : Flag → Option Char
  | .write => some 'w'
  | .verbose => none
  | .version => some 'v'
  | .help => some 'h'

def ofName? (name : String) : Option Flag := all.find? (·.name = name)

def ofLetter? (c : Char) : Option Flag := all.find? (·.letter? = some c)

/-- The name as it is given. -/
def given (f : Flag) : String := "--" ++ f.name

/-- The name as a usage line shows it, with dots if more mentions say more. -/
def usage (f : Flag) : String := if f = .verbose then f.given ++ "..." else f.given

/-- The flag can be meant by this name, which is none. -/
def resembles (name : String) (f : Flag) : Bool :=
  7 / 10 ≤ Text.similarity name.toList f.name.toList

/-- The flag that is most like the name, the later one of equals. -/
def closest? (name : String) : Option Flag :=
  (all.filter (resembles name)).foldl (fun best f =>
    match best with
    | none => some f
    | some g =>
        let score (h : Flag) := Text.similarity name.toList h.name.toList
        if score g ≤ score f then some f else some g) none

end Flag

end JsonLayout.Command
