/-
# Errors About Names

What can go wrong when names are derived and checked: an invariant that others are responsible
for is broken, a file lies outside the project root, or a file has another extension than source
files have. Each cause is a structure of its own, and its wording is in its report.
-/
import MixfixNames.Path.Basic
import MixfixNames.Report

namespace MixfixNames

/-! ## Broken invariants -/

/-- A condition that whoever produced a value had to meet. -/
inductive Invariant where
  /-- A module name has parts. -/
  | someParts
  /-- No part of a module name is empty. -/
  | noEmptyPart
  /-- Another condition, given by what is said when it is broken. -/
  | other (text : Text)
  deriving DecidableEq, Repr

/-- What is said when the condition is broken. -/
def Invariant.violation : Invariant → Text
  | someParts => "a top-level module name has no parts".toList
  | noEmptyPart => "a top-level module name has an empty part".toList
  | other text => text

/-- A value broke an invariant. -/
structure BrokenInvariant where
  /-- The condition that was not met. -/
  invariant : Invariant
  /-- The range of the value that broke it. -/
  range : SourceRange
  deriving Repr

/-- The report of a broken invariant points at the value. -/
def BrokenInvariant.report (e : BrokenInvariant) : Report where
  description := "internal error, an invariant of the compiler was violated".toList
  message := "internal error: ".toList ++ e.invariant.violation
  places := [Place.bare e.range]

/-! ## Files in the wrong place -/

/-- A file is not below the project root. -/
structure OutsideRoot where
  /-- The project root. -/
  root : Path
  /-- The file. -/
  file : Path
  deriving BEq, Repr

/-- The error feeds the root and the file. -/
instance : Feeds OutsideRoot := ⟨fun e => feed e.root ++ feed e.file⟩

/-- The report of a file outside the root points at the start of the file. -/
def OutsideRoot.report (e : OutsideRoot) : Report where
  description := "a source file is outside of the project root".toList
  message := e.file.render ++ " is not inside ".toList ++ e.root.render
  places := [⟨.atStartOf e.file, some ("expected to be below ".toList ++ e.root.render)⟩]

/-! ## Files with the wrong extension -/

/-- A file does not have the extension of source files. -/
structure WrongExtension where
  /-- The file. -/
  file : Path
  /-- The extension of source files. -/
  expected : Text
  deriving BEq, Repr

/-- The error feeds the file and the octets of the extension, with an octet behind them that no text
contains. -/
instance : Feeds WrongExtension :=
  ⟨fun e => feed e.file ++ [.octets (Utf8.encode e.expected), .number 255]⟩

/-- What is said of the extension that a file has. -/
def WrongExtension.finding (e : WrongExtension) : Text :=
  match e.file.extension? with
  | some extension => " has extension .".toList ++ Utf8.lossy extension
  | none => " has no extension".toList

/-- The report of a wrong extension points at the start of the file. -/
def WrongExtension.report (e : WrongExtension) : Report where
  description := "a source file has the wrong extension".toList
  message := e.file.render ++ e.finding ++ ", expected .".toList ++ e.expected
  places := [Place.bare (.atStartOf e.file)]

/-! ## All of them -/

/-- An error about a name. -/
inductive NameError where
  /-- An invariant is broken. -/
  | broken (e : BrokenInvariant)
  /-- A file is outside the project root. -/
  | outsideRoot (e : OutsideRoot)
  /-- A file has the wrong extension. -/
  | wrongExtension (e : WrongExtension)
  deriving Repr

namespace NameError

/-- What is shown of the error. -/
def report : NameError → Report
  | broken e => e.report
  | outsideRoot e => e.report
  | wrongExtension e => e.report

end NameError

/-- Every error about a name can be reported. -/
instance : Reportable NameError where
  description e := e.report.description
  message e := e.report.message
  places? e := some e.report.places

/-- The report of an error about a name is never missing. -/
theorem Reportable.report?_nameError (e : NameError) : Reportable.report? e = some e.report := rfl

end MixfixNames
