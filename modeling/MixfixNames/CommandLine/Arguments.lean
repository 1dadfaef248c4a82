/-
# Arguments

The arguments of the command line are read from left to right on two levels: the options of the
program up to the name of a subcommand, and the options and values of the subcommand behind it.
The extension of source files may be given on both levels, once on each, and the inner one wins.
An option takes its value from behind an equals sign or from the next argument, which must not
look like an option; behind `--` every argument is a value.
-/
import MixfixNames.Path.Basic

namespace MixfixNames.CommandLine

/-! ## What can be asked for -/

/-- A question to the program. -/
inductive Query where
  /-- The parts and the shape of a raw identifier. -/
  | shape (raw : Text)
  /-- The file of a module. -/
  | fileOf (name : Text)
  /-- The root against which a module in a file was resolved. -/
  | rootOf (name : Text) (file : Path)
  /-- The module that a file below a root holds. -/
  | moduleOf (root file : Path)
  /-- A qualified name with the mark of names that are not in scope. -/
  | marked (name : Text)
  /-- A qualified name without that mark. -/
  | unmarked (name : Text)
  /-- The first variation of a raw identifier that is not taken. -/
  | free (raw : Text) (taken : List Text)
  deriving Repr

/-- A question and the extension of source files that it is about. -/
structure Invocation where
  /-- The extension of source files. -/
  extension : Text
  /-- The question. -/
  query : Query
  deriving Repr

/-- Why arguments are not an invocation. -/
inductive Stop where
  /-- The arguments are not understood. -/
  | misuse
  /-- A description of the program is asked for. -/
  | help
  /-- The version of the program is asked for. -/
  | version
  deriving DecidableEq, Repr

/-! ## Options -/

/-- An option that takes a value. -/
inductive Flag where
  /-- The extension of source files. -/
  | extension
  /-- A name that is taken. -/
  | taken
  deriving DecidableEq, Repr

/-- How an argument is meant where an option may stand. -/
inductive Reading where
  /-- It is a value. -/
  | value
  /-- It is `--`, and all that follow are values. -/
  | escape
  /-- It is an option, with its value if that stands in the same argument. -/
  | flag (f : Flag) (inlineValue : Option Text)
  /-- It ends the reading. -/
  | stop (why : Stop)
  deriving Repr

/-- Whether an argument looks like an option; a lone `-` does not. -/
def looksLikeOption : Text → Bool
  | '-' :: _ :: _ => true
  | _ => false

/-- The value that stands in the same argument as a long option, behind its name: nothing, or an
equals sign and the value. -/
def longValue? : Text → Option (Option Text)
  | [] => some none
  | c :: value => if c = '=' then some (some value) else none

/-- The value that stands in the same argument as a short option; an equals sign in front of it
does not count. -/
def shortValue : Text → Option Text
  | [] => none
  | c :: value => if c = '=' then some value else some (c :: value)

/-- The long names of the options. -/
def Flag.longName : Flag → Text
  | extension => "--ext".toList
  | taken => "--taken".toList

/-- Reads an argument as a long option. -/
def Flag.readLong? (f : Flag) (argument : Text) : Option Reading :=
  (f.longName.isPrefixOf? argument).bind fun rest => (longValue? rest).map (.flag f)

/-- Reads an argument as the short option for a name that is taken. -/
def Flag.readShort? (f : Flag) (argument : Text) : Option Reading :=
  match f with
  | extension => none
  | taken => ("-t".toList.isPrefixOf? argument).map fun rest => .flag taken (shortValue rest)

/-! ## Levels -/

/-- What a positional argument has to be. -/
inductive Kind where
  /-- Any text. -/
  | text
  /-- A path, which is not empty. -/
  | path
  deriving DecidableEq, Repr

/-- The options and positional arguments of a level. -/
structure Level where
  /-- The options. -/
  flags : List Flag
  /-- The positional arguments in order. -/
  positionals : List Kind
  /-- Whether the version can be asked for. -/
  hasVersion : Bool
  deriving Repr

/-- How an argument is meant on a level. -/
def Level.read (level : Level) (argument : Text) : Reading :=
  if !looksLikeOption argument then .value
  else if argument = "--".toList then .escape
  else if argument = "--help".toList ∨ argument = "-h".toList then .stop .help
  else if level.hasVersion ∧ (argument = "--version".toList ∨ argument = "-V".toList) then
    .stop .version
  else
    (level.flags.findSome? fun f => (f.readLong? argument).or (f.readShort? argument)).getD
      (.stop .misuse)

/-- What has been read on a level so far. -/
structure Progress where
  /-- The extension, if it was given. -/
  extension : Option Text
  /-- The names that are taken. -/
  taken : List Text
  /-- The positional arguments. -/
  values : List Text
  /-- The option that waits for its value. -/
  pending : Option Flag
  /-- Whether every argument from here on is a value. -/
  escaped : Bool
  deriving Repr

namespace Progress

/-- Nothing has been read. -/
def start : Progress := ⟨none, [], [], none, false⟩

/-- Takes the value of an option. The extension may be given only once. -/
def assign (p : Progress) (f : Flag) (value : Text) : Except Stop Progress :=
  match f, p.extension with
  | .extension, none => .ok { p with extension := some value, pending := none }
  | .extension, some _ => .error .misuse
  | .taken, _ => .ok { p with taken := p.taken ++ [value], pending := none }

/-- Takes the next positional argument, if the level has one more. -/
def accept (p : Progress) (level : Level) (value : Text) : Except Stop Progress :=
  match level.positionals[p.values.length]? with
  | none => .error .misuse
  | some .text => .ok { p with values := p.values ++ [value] }
  | some .path =>
    if value = [] then .error .misuse else .ok { p with values := p.values ++ [value] }

/-- Reads one argument on a level. -/
def step (level : Level) (p : Progress) (argument : Text) : Except Stop Progress :=
  if p.escaped then p.accept level argument
  else
    match p.pending, level.read argument with
    | some f, .value => p.assign f argument
    | some _, _ => .error .misuse
    | none, .value => p.accept level argument
    | none, .escape => .ok { p with escaped := true }
    | none, .flag f none => .ok { p with pending := some f }
    | none, .flag f (some value) => p.assign f value
    | none, .stop why => .error why

end Progress

/-! ## Subcommands -/

/-- A subcommand of the program. -/
inductive Subcommand where
  /-- Asks for the parts and the shape of a raw identifier. -/
  | shape
  /-- Asks for the file of a module. -/
  | fileOf
  /-- Asks for the root against which a module was resolved. -/
  | rootOf
  /-- Asks for the module that a file holds. -/
  | moduleOf
  /-- Asks for a name with its mark. -/
  | marked
  /-- Asks for a name without its mark. -/
  | unmarked
  /-- Asks for a name that is not taken. -/
  | free
  deriving DecidableEq, Repr

namespace Subcommand

/-- All subcommands under the names by which they are called. -/
def table : List (Text × Subcommand) :=
  [("parts".toList, shape), ("module".toList, fileOf), ("root".toList, rootOf),
    ("locate".toList, moduleOf), ("mark".toList, marked), ("unmark".toList, unmarked),
    ("next".toList, free)]

/-- The options and positional arguments of a subcommand. -/
def level : Subcommand → Level
  | shape | fileOf | marked | unmarked => ⟨[.extension], [.text], false⟩
  | rootOf => ⟨[.extension], [.text, .path], false⟩
  | moduleOf => ⟨[.extension], [.path, .path], false⟩
  | free => ⟨[.extension, .taken], [.text], false⟩

/-- The question that a subcommand asks with its positional arguments and the names that are
taken. -/
def query? (c : Subcommand) (values taken : List Text) : Option Query :=
  match c, values with
  | shape, [raw] => some (.shape raw)
  | fileOf, [name] => some (.fileOf name)
  | rootOf, [name, file] => some (.rootOf name (Path.ofText file))
  | moduleOf, [root, file] => some (.moduleOf (Path.ofText root) (Path.ofText file))
  | marked, [name] => some (.marked name)
  | unmarked, [name] => some (.unmarked name)
  | free, [raw] => some (.free raw taken)
  | _, _ => none

end Subcommand

/-! ## Whole command lines -/

/-- The extension of source files if nobody gives another one. -/
def defaultExtension : Text := "lang".toList

/-- Reads the arguments behind a subcommand, where `outer` is the extension that holds unless they
give another one. -/
def readSubcommand (outer : Text) (c : Subcommand) (arguments : List Text) :
    Except Stop Invocation :=
  match arguments.foldlM (Progress.step c.level) Progress.start with
  | .error why => .error why
  | .ok p =>
    match p.pending, c.query? p.values p.taken with
    | none, some query => .ok ⟨p.extension.getD outer, query⟩
    | _, _ => .error .misuse

/-- The options of the program itself. -/
def topLevel : Level := ⟨[.extension], [], true⟩

/-- What `help` asks for with the arguments behind it. Nothing else may stand there than the name of
one subcommand, or `help` itself. -/
def readHelp : List Text → Stop
  | [] => .help
  | [topic] =>
    if topic = "help".toList ∨ (Subcommand.table.lookup topic).isSome then .help else .misuse
  | _ :: _ :: _ => .misuse

/-- Reads the arguments up to and behind the name of a subcommand, where `outside` is the extension
that holds unless they give another one. -/
def readTop (outside : Text) : Progress → List Text → Except Stop Invocation
  | _, [] => .error .misuse
  | p, argument :: rest =>
    if p.pending.isNone && !p.escaped && !looksLikeOption argument then
      match Subcommand.table.lookup argument with
      | some c => readSubcommand (p.extension.getD outside) c rest
      | none => .error (if argument = "help".toList then readHelp rest else .misuse)
    else
      match p.step topLevel argument with
      | .error why => .error why
      | .ok q => readTop outside q rest

/-- The invocation that a command line denotes. The extension is taken from the arguments, else
from the environment, else it is the default one. -/
def read (environment : Option Text) (arguments : List Text) : Except Stop Invocation :=
  readTop (environment.getD defaultExtension) Progress.start arguments

/-- Without arguments there is nothing to do. -/
theorem read_nil (environment : Option Text) : read environment [] = .error .misuse := rfl

end MixfixNames.CommandLine
