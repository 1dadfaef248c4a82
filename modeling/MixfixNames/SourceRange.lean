/-
# Source Ranges

A source range is a span of characters in a file, or the absence of one. Ranges fuse to the
smallest range that covers both, where an unknown range yields to the other side and a range in
another file is ignored; the range of several values covers theirs from left to right.
-/
import MixfixNames.Path.Basic

namespace MixfixNames

/-- Where a value was read from. -/
inductive SourceRange where
  /-- The location is lost, or the value was made on the fly. -/
  | unknown
  /-- The characters of a file from `start` up to but not including `stop`. -/
  | known (file : Path) (start stop : Nat)
  deriving Repr

namespace SourceRange

/-- The range at the very start of a file. -/
def atStartOf (file : Path) : SourceRange := known file 0 0

/-- The two ends of the span, if it is known. -/
def span? : SourceRange → Option (Nat × Nat)
  | unknown => none
  | known _ start stop => some (start, stop)

/-- The file, if it is known. -/
def file? : SourceRange → Option Path
  | unknown => none
  | known file _ _ => some file

/-- Whether anything is known of the location. -/
def isKnown : SourceRange → Bool
  | unknown => false
  | known .. => true

/-- The range as text. -/
def render : SourceRange → Text
  | unknown => "unknown".toList
  | known file start stop =>
    file.render ++ ':' :: (Text.decimal start ++ "..".toList ++ Text.decimal stop)

/-! ## Identity and order -/

/-- Ranges are equal when they span the same characters of the same place. -/
instance : BEq SourceRange where
  beq
    | unknown, unknown => true
    | known f s e, known f' s' e' => f == f' && s == s' && e == e'
    | _, _ => false

/-- The unknown range comes first, the others are ordered by file, start and end. -/
instance : Ord SourceRange where
  compare
    | unknown, unknown => .eq
    | unknown, known .. => .lt
    | known .., unknown => .gt
    | known f s e, known f' s' e' =>
      (compare f f').then ((compare s s').then (compare e e'))

/-- A range feeds whether it is known, and if so the file and the two ends. -/
instance : Feeds SourceRange where
  feed
    | unknown => [.number 0]
    | known f s e => .number 1 :: (feed f ++ [.number s, .number e])

/-! ## Fusing -/

/-- The smallest range that covers both. An unknown range yields to the other side; of ranges in
different files the left one stays. -/
def fuse : SourceRange → SourceRange → SourceRange
  | unknown, r => r
  | r, unknown => r
  | known f s e, known f' s' e' =>
    if f == f' then known f (min s s') (max e e') else known f s e

/-- An unknown range on the left yields. -/
@[simp] theorem unknown_fuse (r : SourceRange) : unknown.fuse r = r := by
  cases r <;> rfl

/-- An unknown range on the right yields. -/
@[simp] theorem fuse_unknown (r : SourceRange) : r.fuse unknown = r := by
  cases r <;> rfl

/-- A range covers itself and nothing more. -/
@[simp] theorem fuse_self (r : SourceRange) : r.fuse r = r := by
  cases r with
  | unknown => rfl
  | known f s e =>
    have : (f == f) = true := Path.beq_iff.mpr rfl
    simp [fuse, this]

/-- The range that covers a sequence of ranges, fused from left to right. -/
def cover (ranges : List SourceRange) : SourceRange := ranges.foldl fuse unknown

/-- Nothing covers nothing. -/
@[simp] theorem cover_nil : cover [] = unknown := rfl

/-- A sole range is covered by itself. -/
@[simp] theorem cover_singleton (r : SourceRange) : cover [r] = r := by
  simp [cover]

/-- A range behind the others is fused to what covers them. -/
theorem cover_concat (ranges : List SourceRange) (r : SourceRange) :
    cover (ranges ++ [r]) = (cover ranges).fuse r := by
  simp [cover]

/-- A range covers itself however often it occurs. -/
theorem cover_eq_of_forall {ranges : List SourceRange} {r : SourceRange}
    (hne : ranges ≠ []) (h : ∀ s ∈ ranges, s = r) : cover ranges = r := by
  have hfold : ∀ rest : List SourceRange, (∀ s ∈ rest, s = r) → rest.foldl fuse r = r := by
    intro rest
    induction rest with
    | nil => exact fun _ => rfl
    | cons s rest ih =>
      intro hs
      rw [List.foldl_cons, hs s List.mem_cons_self, fuse_self]
      exact ih fun t ht => hs t (List.mem_cons_of_mem s ht)
  cases ranges with
  | nil => exact absurd rfl hne
  | cons s rest =>
    rw [cover, List.foldl_cons, unknown_fuse, h s List.mem_cons_self]
    exact hfold rest fun t ht => h t (List.mem_cons_of_mem s ht)

end SourceRange

end MixfixNames
