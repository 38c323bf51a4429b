import JsonLayout.Command.Flag

/-! # The command line

Arguments are read from left to right, and the first one that asks for a text, or is wrong, decides.
After `--` everything is a glob. -/

namespace JsonLayout.Command

structure Options where
  globs : List String := []
  /-- Every mention of a flag, in order. -/
  flags : List Flag := []
  deriving DecidableEq, Inhabited

namespace Options

def write (o : Options) : Bool := o.flags.contains .write

/-- How often more detail was asked for. -/
def detail (o : Options) : Nat := o.flags.count .verbose

/-- Each flag once, in the order of the last mentions. -/
def distinctFlags (o : Options) : List Flag := o.flags.reverse.eraseDups.reverse

end Options

inductive Request where
  | run (options : Options)
  | help
  | version
  deriving DecidableEq

/-- What is wrong with an argument. What was read before it tells which usage to recall. -/
inductive UsageError where
  | unknownLetter (letter : Char)
  | unknownName (name : String) (before : Options)
  | repeated (flag : Flag)
  | needlessValue (flag : Flag) (value : String) (before : Options)
  deriving DecidableEq

/-- After an argument: the options so far, or a request that needs no further ones. -/
abbrev Reading := Except UsageError (Options ⊕ Request)

namespace Options

/-- Only `--verbose` says more when it is repeated. -/
def mention (o : Options) : Flag → Reading
  | .write =>
      if o.write then .error (.repeated .write) else .ok (.inl { o with flags := o.flags ++ [.write] })
  | .verbose => .ok (.inl { o with flags := o.flags ++ [.verbose] })
  | .version => .ok (.inr .version)
  | .help => .ok (.inr .help)

/-- Flags of one letter each, after a single dash. -/
def readLetters (o : Options) : List Char → Reading
  | [] => .ok (.inl o)
  | c :: rest =>
      match Flag.ofLetter? c with
      | none => .error (.unknownLetter c)
      | some flag =>
          match o.mention flag with
          | .ok (.inl o') => o'.readLetters rest
          | other => other

/-- A flag by its full name, perhaps with a value, which none of them takes. -/
def readName (o : Options) (name : String) (value : Option String) : Reading :=
  match Flag.ofName? name, value with
  | none, _ => .error (.unknownName name o)
  | some flag, some v => .error (.needlessValue flag v o)
  | some flag, none => o.mention flag

/-- One argument before `--`. -/
def readArgument (o : Options) (argument : String) : Reading :=
  match argument.toList with
  | '-' :: '-' :: rest =>
      let name := rest.takeWhile (· ≠ '=')
      let value := match rest.drop name.length with
        | [] => none
        | _ :: v => some (String.ofList v)
      o.readName (String.ofList name) value
  | '-' :: c :: rest => o.readLetters (c :: rest)
  | _ => .ok (.inl { o with globs := o.globs ++ [argument] })

def readAll (o : Options) : List String → Except UsageError Request
  | [] => .ok (.run o)
  | "--" :: globs => .ok (.run { o with globs := o.globs ++ globs })
  | argument :: rest =>
      match o.readArgument argument with
      | .error e => .error e
      | .ok (.inr request) => .ok request
      | .ok (.inl o') => o'.readAll rest

end Options

/-- What the arguments ask for. -/
def Request.ofArguments (arguments : List String) : Except UsageError Request :=
  ({} : Options).readAll arguments

end JsonLayout.Command
