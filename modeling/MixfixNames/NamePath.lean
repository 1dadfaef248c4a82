/-
# Qualified Names as Paths

A qualified name is built from its inner end, extended there and read from its outer end. Seen so
it is a path: the innermost segment, or a qualifier in front of the rest of the path. A walk along
a path holds what has not been read of it. The main statements, `segments_simple` and
`segments_qualified`, say that a walk meets the segments one after the other; all else about a path
follows its recursion. `MixfixNames.Proofs.QualifiedName.Segments` shows that paths are the
qualified names with the same segments.
-/
import MixfixNames.QualifiedName

namespace MixfixNames

/-- A path of names, outermost first. -/
inductive NamePath where
  /-- The innermost segment. -/
  | simple (x : Name)
  /-- A qualifier and the rest of the path. -/
  | qualified (x : Name) (rest : NamePath)
  deriving Repr

namespace NamePath

/-! ## Building paths -/

/-- The path with the given segments, built around the last one; no segments make up no path. -/
def ofSegments? (xs : List Name) : Option NamePath :=
  xs.getLast?.map fun x => xs.dropLast.foldr qualified (simple x)

/-- The path with one more segment at its inner end. -/
def qualify : NamePath → Name → NamePath
  | simple y, x => qualified y (simple x)
  | qualified y rest, x => qualified y (rest.qualify x)

/-! ## The ends of a path -/

/-- The innermost segment. -/
def last : NamePath → Name
  | simple x => x
  | qualified _ rest => rest.last

/-- The outermost segment. -/
def first : NamePath → Name
  | simple x => x
  | qualified x _ => x

/-- Whether there is a qualifier. -/
def isQualified : NamePath → Bool
  | simple _ => false
  | qualified _ _ => true

/-- The sole segment, if there is no qualifier. -/
def sole? : NamePath → Option Name
  | simple x => some x
  | qualified _ _ => none

/-! ## Walks -/

/-- A walk along a path. -/
structure Walk where
  /-- What has not been read of the path; behind its last segment that is nothing. -/
  rest : Option NamePath
  deriving Repr

/-- The walk that starts at the outer end. -/
def walk (p : NamePath) : Walk := ⟨some p⟩

namespace Walk

/-- The next segment, and the walk behind it. -/
def next : Walk → Option Name × Walk
  | ⟨none⟩ => (none, ⟨none⟩)
  | ⟨some (.simple x)⟩ => (some x, ⟨none⟩)
  | ⟨some (.qualified x rest)⟩ => (some x, ⟨some rest⟩)

/-- A step along a path leaves less of it. -/
theorem sizeOf_of_next {w v : Walk} {x : Name} (h : w.next = (some x, v)) :
    sizeOf v < sizeOf w := by
  rcases w with ⟨_ | ⟨y | ⟨y, rest⟩⟩⟩
  · simp [next] at h
  · simp only [next, Prod.mk.injEq] at h
    obtain ⟨-, rfl⟩ := h
    simp +arith
  · simp only [next, Prod.mk.injEq] at h
    obtain ⟨-, rfl⟩ := h
    simp +arith

/-- The segments that the walk meets until nothing is left. -/
def collect (w : Walk) : List Name :=
  match h : w.next with
  | (none, _) => []
  | (some x, v) =>
    have := sizeOf_of_next h
    x :: v.collect
termination_by sizeOf w

/-- At the end of the path a walk meets nothing. -/
theorem collect_of_next_eq_none {w v : Walk} (h : w.next = (none, v)) : w.collect = [] := by
  rw [collect]
  split
  · rfl
  · next hx =>
    rw [hx] at h
    cases h

/-- A walk meets its next segment and then what it meets behind it. -/
theorem collect_of_next_eq_some {w v : Walk} {x : Name} (h : w.next = (some x, v)) :
    w.collect = x :: v.collect := by
  rw [collect]
  split
  · next hx =>
    rw [hx] at h
    cases h
  · next hx =>
    rw [hx] at h
    cases h
    rfl

end Walk

/-! ## Segments, range and text -/

/-- All segments, outermost first. -/
def segments (p : NamePath) : List Name := p.walk.collect

/-- A path without qualifiers has one segment. -/
@[simp] theorem segments_simple (x : Name) : (simple x).segments = [x] := by
  have hend : (⟨none⟩ : Walk).collect = [] := Walk.collect_of_next_eq_none rfl
  rw [segments, Walk.collect_of_next_eq_some (w := (simple x).walk) rfl, hend]

/-- A qualifier stands in front of the other segments. -/
@[simp] theorem segments_qualified (x : Name) (rest : NamePath) :
    (qualified x rest).segments = x :: rest.segments :=
  Walk.collect_of_next_eq_some (w := (qualified x rest).walk) rfl

/-- The range that covers all segments, fused along a walk. -/
def range (p : NamePath) : SourceRange :=
  p.segments.foldl (fun range x => range.fuse x.range) .unknown

/-- The innermost segment at the range of the whole path. -/
def unqualified (p : NamePath) : Name := p.last.atRange p.range

/-- The path as it is printed. Qualifiers that are no names are left out. -/
def render : NamePath → Text
  | simple x => x.render
  | qualified x rest =>
    if x.isNameless then rest.render else x.render ++ QualifiedName.separator :: rest.render

/-! ## Hashing -/

/-- What a path feeds: at each level whether it ends there, and the segment. -/
def feedPath : NamePath → List HashItem
  | simple x => .number 1 :: feed x
  | qualified x rest => .number 0 :: (feed x ++ rest.feedPath)

instance : Feeds NamePath := ⟨feedPath⟩

/-! ## Paths and qualified names -/

/-- The qualified name with the segments of the path. -/
def toQualifiedName : NamePath → QualifiedName
  | simple x => .simple x
  | qualified x rest => ⟨x :: rest.toQualifiedName.qualifiers, rest.toQualifiedName.last⟩

/-- A path without qualifiers has one level, which is the last. -/
theorem levels_simple (x : Name) :
    (simple x).toQualifiedName.levels = [⟨true, x.identity⟩] := rfl

/-- A qualifier is a level in front of the others. -/
theorem levels_qualified (x : Name) (rest : NamePath) :
    (qualified x rest).toQualifiedName.levels =
      ⟨false, x.identity⟩ :: rest.toQualifiedName.levels := rfl

end NamePath

/-- The path with the segments of the name. -/
def QualifiedName.path (q : QualifiedName) : NamePath :=
  q.qualifiers.foldr .qualified (.simple q.last)

end MixfixNames
