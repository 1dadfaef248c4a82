/-
# Answers

What the program prints for an invocation, and the status with which it ends: 0 if the question
was answered, 1 if a name or file was in error, 2 if the arguments were not understood.
-/
import MixfixNames.CommandLine.Arguments
import MixfixNames.Mark
import MixfixNames.ModuleName.File
import MixfixNames.Name.Variation

namespace MixfixNames.CommandLine

/-! ## Answering -/

/-- The parts and the shape of a raw identifier, one property on a line. -/
def describe (raw : Text) : Text :=
  let x := Name.ofRaw .unknown raw
  Text.join ['\n']
    [ "parts: ".toList ++ Text.join [' '] (x.shownParts.map Part.inspect),
      "fixity: ".toList ++ (x.fixity?.map Fixity.word).getD "none".toList,
      "holes: ".toList ++ Text.decimal x.holeCount,
      "operator: ".toList ++ Text.truth x.isOperator,
      "open: ".toList ++ Text.truth x.isOpen,
      "no-name: ".toList ++ Text.truth x.isNameless ]

/-- The first variation of a raw identifier that is not taken, or a remark that there is none. -/
def nextFree (raw : Text) (taken : List Text) : Text :=
  match Name.firstFree? (taken.map (Name.ofRaw .unknown)) (Name.ofRaw .unknown raw) with
  | some x => x.render
  | none => raw ++ " is taken and has no variations".toList

/-- The answer to a question. -/
def answer (i : Invocation) : Except NameError Text :=
  match i.query with
  | .shape raw => .ok (describe raw)
  | .fileOf name =>
    (ModuleName.parse .unknown name).map fun m => (m.toFile i.extension).render
  | .rootOf name file =>
    (ModuleName.parse .unknown name).map fun m => (m.rootOf file).render
  | .moduleOf root file => (ModuleName.ofFile root file i.extension).map ModuleName.render
  | .marked name => .ok (mark (QualifiedName.parse .unknown name)).render
  | .unmarked name => .ok (unmark (QualifiedName.parse .unknown name)).render
  | .free raw taken => .ok (nextFree raw taken)

/-! ## Outcomes -/

/-- How the program ends. -/
inductive Outcome where
  /-- The question is answered on standard output. -/
  | answered (output : Text)
  /-- A report of an error goes to standard error. -/
  | failed (output : Text)
  /-- The arguments were not understood. -/
  | misused
  deriving DecidableEq, Repr

namespace Outcome

/-- The exit status. -/
def status : Outcome → Nat
  | answered _ => 0
  | failed _ => 1
  | misused => 2

end Outcome

/-- How the program is used. -/
def usage : Text :=
  ("Inspect mixfix names and the files of modules\n\n" ++
    "namex [--ext EXT] parts RAW\n" ++
    "namex [--ext EXT] module NAME\n" ++
    "namex [--ext EXT] root NAME FILE\n" ++
    "namex [--ext EXT] locate ROOT FILE\n" ++
    "namex [--ext EXT] mark NAME\n" ++
    "namex [--ext EXT] unmark NAME\n" ++
    "namex [--ext EXT] next RAW [-t TAKEN]...\n").toList

/-- The version of the program. -/
def version : Text := "namex 0.1.0\n".toList

/-- Runs the program on its arguments and the extension that the environment gives. -/
def run (environment : Option Text) (arguments : List Text) : Outcome :=
  match read environment arguments with
  | .error .misuse => .misused
  | .error .help => .answered usage
  | .error .version => .answered version
  | .ok i =>
    match answer i with
    | .ok output => .answered (output ++ ['\n'])
    | .error e => .failed (e.report.render ++ ['\n'])

/-- A run on no arguments is a misuse. -/
theorem run_nil (environment : Option Text) : run environment [] = .misused := rfl

end MixfixNames.CommandLine
