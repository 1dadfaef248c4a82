/-
# Qualified Names

A qualified name such as `Data.List._++_` is a sequence of segments that is not empty: the
qualifiers, outermost first, and the last segment. Its range is not stored but covers those of its
segments. Printing leaves out the qualifiers that are no names, since qualification by an
anonymous module is invisible. The main statements tie the name to the list of its segments.
-/
import MixfixNames.Name.Shape

namespace MixfixNames

/-- A sequence of names that is not empty, outermost first. -/
structure QualifiedName where
  /-- The segments before the last one. -/
  qualifiers : List Name
  /-- The innermost segment. -/
  last : Name
  deriving Repr

namespace QualifiedName

/-! ## Segments -/

/-- The character between two segments. -/
def separator : Char := '.'

/-- All segments, outermost first. -/
def segments (q : QualifiedName) : List Name := q.qualifiers ++ [q.last]

/-- The name that consists of a single segment. -/
def simple (x : Name) : QualifiedName := ⟨[], x⟩

/-- The name that consists of the given segments; an empty sequence is no name. -/
def ofSegments? (xs : List Name) : Option QualifiedName :=
  xs.getLast?.map fun x => ⟨xs.dropLast, x⟩

/-- The name that a dotted text denotes, with all segments at one range. -/
def parse (range : SourceRange) (dotted : Text) : QualifiedName :=
  let pieces := dotted.splitOn separator
  ⟨pieces.dropLast.map (Name.ofRaw range),
    Name.ofRaw range (pieces.getLast (List.splitOn_ne_nil separator dotted))⟩

/-- The name with one more segment at its inner end. -/
def qualify (q : QualifiedName) (x : Name) : QualifiedName := ⟨q.segments, x⟩

/-- The outermost segment. -/
def first (q : QualifiedName) : Name := q.qualifiers.headD q.last

/-- Whether there is more than one segment. -/
def isQualified (q : QualifiedName) : Bool := !q.qualifiers.isEmpty

/-- The sole segment, if there is only one. -/
def sole? (q : QualifiedName) : Option Name :=
  if q.qualifiers = [] then some q.last else none

/-- A name has a segment. -/
theorem segments_ne_nil (q : QualifiedName) : q.segments ≠ [] := by
  simp [segments]

/-- The outermost segment is the first one. -/
theorem head?_segments (q : QualifiedName) : q.segments.head? = some q.first := by
  obtain ⟨_ | ⟨x, xs⟩, last⟩ := q <;> rfl

/-- A name consists of its segments. -/
theorem ofSegments?_segments (q : QualifiedName) : ofSegments? q.segments = some q := by
  simp [ofSegments?, segments]

/-- Segments that make up a name are its segments. -/
theorem segments_of_ofSegments? {xs : List Name} {q : QualifiedName}
    (h : ofSegments? xs = some q) : q.segments = xs := by
  obtain ⟨x, hx, rfl⟩ := Option.map_eq_some_iff.mp h
  obtain ⟨ys, rfl⟩ := List.getLast?_eq_some_iff.mp hx
  simp [segments]

/-- Only an empty sequence makes up no name. -/
theorem ofSegments?_eq_none_iff {xs : List Name} : ofSegments? xs = none ↔ xs = [] := by
  simp [ofSegments?]

/-- Qualifying puts a segment behind the others. -/
theorem segments_qualify (q : QualifiedName) (x : Name) :
    (q.qualify x).segments = q.segments ++ [x] := rfl

/-- The segments of a dotted text are its pieces. -/
theorem segments_parse (range : SourceRange) (dotted : Text) :
    (parse range dotted).segments = (dotted.splitOn separator).map (Name.ofRaw range) := by
  simp only [parse, segments]
  rw [← List.map_singleton, ← List.map_append, List.dropLast_concat_getLast]

/-! ## Ranges -/

/-- The range that covers all segments. -/
def range (q : QualifiedName) : SourceRange := SourceRange.cover (q.segments.map Name.range)

/-- The name with all ranges erased. -/
def eraseRange (q : QualifiedName) : QualifiedName :=
  ⟨q.qualifiers.map Name.eraseRange, q.last.eraseRange⟩

/-- The innermost segment at the range of the whole name. -/
def unqualified (q : QualifiedName) : Name := q.last.atRange q.range

/-- A name that is read from a text covers the range that it was read at. -/
theorem range_parse (range : SourceRange) (dotted : Text) : (parse range dotted).range = range := by
  apply SourceRange.cover_eq_of_forall
  · simp [segments]
  · intro r hr
    simp only [segments_parse, List.map_map, List.mem_map] at hr
    obtain ⟨piece, -, rfl⟩ := hr
    rfl

/-- One more segment widens the range. -/
theorem range_qualify (q : QualifiedName) (x : Name) :
    (q.qualify x).range = q.range.fuse x.range := by
  rw [range, segments_qualify, List.map_append, List.map_singleton, SourceRange.cover_concat]
  rfl

/-! ## Identity and order -/

/-- One level of a qualified name: whether it is the innermost one, and what the segment is. -/
structure Level where
  /-- Whether the name ends here. -/
  isLast : Bool
  /-- The identity of the segment. -/
  identity : Identity
  deriving DecidableEq, Repr

/-- A level behind which the name goes on comes before one where it ends; otherwise the segments
decide. -/
instance : Ord Level where
  compare a b := (compare a.isLast b.isLast).then (compare a.identity b.identity)

/-- A level feeds whether the name ends at it, and the segment. -/
instance : Feeds Level where
  feed a := .number (if a.isLast then 1 else 0) :: feed a.identity

/-- The levels of a name, outermost first. -/
def levels (q : QualifiedName) : List Level :=
  q.qualifiers.map (fun x => ⟨false, x.identity⟩) ++ [⟨true, q.last.identity⟩]

/-- Qualified names are equal when their levels are. -/
instance : BEq QualifiedName := ⟨fun q r => q.levels == r.levels⟩

/-- Qualified names are ordered level by level. -/
instance : Ord QualifiedName := ⟨fun q r => compare q.levels r.levels⟩

/-- A qualified name feeds its levels one after the other. -/
instance : Feeds QualifiedName := ⟨fun q => q.levels.flatMap feed⟩

/-- Being equal means having the same levels. -/
theorem beq_iff {q r : QualifiedName} : (q == r) = true ↔ q.levels = r.levels := by
  show (q.levels == r.levels) = true ↔ q.levels = r.levels
  exact beq_iff_eq

/-! ## Shape and text -/

/-- The number of arguments that the name takes; qualification does not change it. -/
def holeCount (q : QualifiedName) : Nat := q.last.holeCount

/-- Whether the name stands for the wildcard in binding position. -/
def isNameless (q : QualifiedName) : Bool := !q.isQualified && q.last.isNameless

/-- The segments that are printed: qualifiers that are no names are left out. -/
def shownSegments (q : QualifiedName) : List Name :=
  q.qualifiers.filter (fun x => !x.isNameless) ++ [q.last]

/-- The name as it is printed. -/
def render (q : QualifiedName) : Text :=
  Text.join [separator] (q.shownSegments.map Name.render)

/-- The name as it is inspected. -/
def inspect (q : QualifiedName) : Text := "QName(".toList ++ q.render ++ [')']

/-- A name of one segment is printed as that segment. -/
theorem render_simple (x : Name) : (simple x).render = x.render := by
  simp [simple, render, shownSegments, Text.join]

end QualifiedName

end MixfixNames
