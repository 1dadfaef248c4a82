/-
# The Files of Modules

A module `A.B.C` lives in the file `A/B/C` with the extension of source files, relative to the
project root. The module of a file is found from the components below the root: directories are
the outer parts, the file name without its extension is the last one. Nothing is read from disk.

While it works the library tells an observer of every broken invariant at once, since only the first
error of a unit may ever be shown, and which module a file holds and which root a module was
resolved against.
-/
import MixfixNames.ModuleName.Basic
import MixfixNames.Path.Pieces

namespace MixfixNames

/-- An extension without the full stop that may stand in front of it. -/
def withoutDot : Text → Text
  | [] => []
  | c :: s => if c = '.' then s else c :: s

namespace ModuleName

/-- The name of a module's file in its directory. -/
def fileText (m : ModuleName) (extension : Text) : Text :=
  m.last ++ '.' :: withoutDot extension

/-- The path of a module's file relative to the project root. -/
def toFile (m : ModuleName) (extension : Text) : Path :=
  (m.outer.foldl (fun p part => p.join (Path.ofText part)) Path.empty).join
    (Path.ofText (m.fileText extension))

/-- The directory against which the module was resolved, given the file that was loaded for it:
one level up for the file, and one more for every part but the last. Going up stops at the top of
the path. -/
def rootOf (m : ModuleName) (file : Path) : Path := file.ascend m.length

/-- The parts of the module that the components `below` a root denote, where the last one is a
file name without its extension, `stem`. Components other than directory entries do not count. -/
def partsBelow (below : List Component) (stem : List UInt8) : List Text :=
  (below.dropLast ++ (Component.ofPiece? stem).toList).filterMap Component.text?

/-- The module that is loaded from a file under a project root. -/
def ofFile (root file : Path) (extension : Text) : Except NameError ModuleName :=
  let expected := withoutDot extension
  match root.components.isPrefixOf? file.components with
  | none => .error (.outsideRoot ⟨root, file⟩)
  | some below =>
    match (Path.entryAtEnd? below).map splitExtension with
    | some (stem, some found) =>
      if found = Utf8.encode expected then
        ofParts (.atStartOf file) (partsBelow below stem)
      else .error (.wrongExtension ⟨file, expected⟩)
    | _ => .error (.wrongExtension ⟨file, expected⟩)

/-- A full stop in front of an extension does not count. -/
theorem withoutDot_dot (extension : Text) : withoutDot ('.' :: extension) = extension := by
  simp [withoutDot]

/-- A located module points at the start of its file. -/
theorem range_of_ofFile {root file : Path} {extension : Text} {m : ModuleName}
    (h : ofFile root file extension = .ok m) : m.range = .atStartOf file := by
  unfold ofFile at h
  simp only at h
  split at h
  · cases h
  · split at h
    · split at h
      · exact (parts_of_ofParts h).2
      · cases h
    · cases h

end ModuleName

/-! ## Events -/

/-- Something that an observer is told. -/
inductive Event where
  /-- An invariant is broken. -/
  | violation (e : BrokenInvariant)
  /-- A file holds a module. -/
  | located (file : Path) (m : ModuleName)
  /-- The root of a module that was loaded from a file. -/
  | rooted (m : ModuleName) (file root : Path)
  deriving Repr

namespace Event

/-- The event as a line with its level in front. -/
def render : Event → Text
  | violation e =>
    "ERROR internal error at ".toList ++ e.range.render ++ ": ".toList ++ e.invariant.violation
  | located file m => "DEBUG ".toList ++ file.render ++ " holds module ".toList ++ m.render
  | rooted m file root =>
    "DEBUG project root of ".toList ++ m.render ++ " loaded from ".toList ++ file.render ++
      " is ".toList ++ root.render

/-- What an observer is told of an error. -/
def ofError : NameError → List Event
  | .broken e => [violation e]
  | _ => []

/-- What an observer is told when a module name is made of parts or text. -/
def ofMaking : Except NameError ModuleName → List Event
  | .ok _ => []
  | .error e => ofError e

/-- What an observer is told when the module of a file is found, or is not. -/
def ofLocating (file : Path) : Except NameError ModuleName → List Event
  | .ok m => [located file m]
  | .error e => ofError e

/-- What an observer is told when the root of a module is found. -/
def ofRooting (m : ModuleName) (file : Path) : List Event := [rooted m file (m.rootOf file)]

end Event

end MixfixNames
