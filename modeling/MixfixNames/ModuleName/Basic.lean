/-
# Module Names

The name of a compilation unit is a sequence of parts that is not empty, written with a full stop
between each two. Two module names are the same when their parts are; the range where the name
was written does not count. A name that is read from text has no empty part, a name taken from a
qualified name has the printed segments as its parts.
-/
import MixfixNames.NameError
import MixfixNames.QualifiedName

namespace MixfixNames

/-- The name of a compilation unit. -/
structure ModuleName where
  /-- Where the name was written. -/
  range : SourceRange
  /-- The parts, outermost first. -/
  parts : List Text
  /-- There is a part. -/
  parts_ne_nil : parts ≠ []
  deriving Repr

namespace ModuleName

/-! ## Making module names -/

/-- The module name with the given parts; there has to be one, and none may be empty. -/
def ofParts (range : SourceRange) (parts : List Text) : Except NameError ModuleName :=
  if h : parts = [] then .error (.broken ⟨.someParts, range⟩)
  else if parts.any List.isEmpty then .error (.broken ⟨.noEmptyPart, range⟩)
  else .ok ⟨range, parts, h⟩

/-- The parts of a dotted text; the empty text has none. -/
def partsOfText (dotted : Text) : List Text :=
  if dotted = [] then [] else dotted.splitOn QualifiedName.separator

/-- The module name that a dotted text denotes. -/
def parse (range : SourceRange) (dotted : Text) : Except NameError ModuleName :=
  ofParts range (partsOfText dotted)

/-- The module name that a qualified name denotes, with one part for each segment. -/
def ofQualified (q : QualifiedName) : ModuleName where
  range := q.range
  parts := q.segments.map Name.render
  parts_ne_nil := by simp [QualifiedName.segments]

/-- A module name made of parts has these parts and this range. -/
theorem parts_of_ofParts {range : SourceRange} {parts : List Text} {m : ModuleName}
    (h : ofParts range parts = .ok m) : m.parts = parts ∧ m.range = range := by
  unfold ofParts at h
  split at h
  · cases h
  · split at h
    · cases h
    · cases h
      exact ⟨rfl, rfl⟩

/-! ## Parts -/

/-- The number of parts, at least 1. -/
def length (m : ModuleName) : Nat := m.parts.length

/-- The innermost part. -/
def last (m : ModuleName) : Text := m.parts.getLast m.parts_ne_nil

/-- The parts before the innermost one. -/
def outer (m : ModuleName) : List Text := m.parts.dropLast

/-- The innermost part stands behind the others. -/
theorem outer_append_last (m : ModuleName) : m.outer ++ [m.last] = m.parts :=
  List.dropLast_concat_getLast m.parts_ne_nil

/-- There is a part. -/
theorem length_pos (m : ModuleName) : 0 < m.length :=
  List.length_pos_iff.mpr m.parts_ne_nil

/-! ## Identity and order -/

/-- Module names are the same when their parts are. -/
instance : BEq ModuleName := ⟨fun m n => m.parts == n.parts⟩

/-- Module names are ordered part by part. -/
instance : Ord ModuleName := ⟨fun m n => compare m.parts n.parts⟩

/-- A module name feeds the number of its parts and the parts. -/
instance : Feeds ModuleName := ⟨fun m => .number m.parts.length :: m.parts.map .token⟩

/-- Being the same means having the same parts. -/
theorem beq_iff {m n : ModuleName} : (m == n) = true ↔ m.parts = n.parts := by
  show (m.parts == n.parts) = true ↔ m.parts = n.parts
  exact beq_iff_eq

/-! ## Ranges and text -/

/-- The same module name at another range. -/
def atRange (m : ModuleName) (range : SourceRange) : ModuleName := { m with range }

/-- The same module name without its range. -/
def eraseRange (m : ModuleName) : ModuleName := m.atRange .unknown

/-- The name as it is written. -/
def render (m : ModuleName) : Text := Text.join [QualifiedName.separator] m.parts

/-- The name as it is inspected. -/
def inspect (m : ModuleName) : Text := "TopLevelModuleName(".toList ++ m.render ++ [')']

end ModuleName

end MixfixNames
