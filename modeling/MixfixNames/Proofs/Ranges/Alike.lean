/-
# Values That Are Alike but for Their Ranges

Names, qualified names and module names carry ranges, and so do lists and pairs of them and whatever
else they occur in. Two such values are alike if they become the same value by a change of ranges
only, and this is the case exactly if nothing is left of their difference when all ranges are
erased. An operation is blind to ranges if alike arguments give it the same result, or, where the
result carries ranges itself, a result that is alike and without ranges if the argument is.
-/
import Mathlib.Data.List.Forall2
import MixfixNames.ModuleName.Basic
import MixfixNames.Name.Variation

namespace MixfixNames

/-! ## Values with ranges -/

/-- Values that carry ranges. -/
class Ranged (α : Type) where
  /-- The two values are the same but for the ranges in them. -/
  Alike : α → α → Prop
  /-- The value with every range in it unknown. -/
  erase : α → α
  /-- Values are alike exactly if they are the same without ranges. -/
  alike_iff : ∀ {x y : α}, Alike x y ↔ erase x = erase y

export Ranged (Alike erase alike_iff)

variable {α β γ : Type} [Ranged α] [Ranged β]

/-- Lists are alike if they are item by item. -/
instance : Ranged (List α) where
  Alike := List.Forall₂ Alike
  erase := List.map erase
  alike_iff {xs ys} := by
    have halike : (Alike : α → α → Prop) = fun x y => erase x = erase y := by
      funext x y
      exact propext alike_iff
    rw [← List.forall₂_eq_eq_eq, List.forall₂_map_left_iff, List.forall₂_map_right_iff, halike]

/-- Optional values are alike if both are missing, or neither and they are. -/
instance : Ranged (Option α) where
  Alike := Option.Rel Alike
  erase := Option.map erase
  alike_iff {x y} := by
    constructor
    · rintro (h | _)
      · rw [Option.map_some, Option.map_some, alike_iff.mp h]
      · rfl
    · intro h
      cases x with
      | none =>
        obtain rfl := Option.map_eq_none_iff.mp h.symm
        exact .none
      | some x =>
        obtain ⟨y, rfl, hy⟩ := Option.map_eq_some_iff.mp h.symm
        exact .some (alike_iff.mpr hy.symm)

/-- Pairs are alike if both sides are. -/
instance : Ranged (α × β) where
  Alike p q := Alike p.1 q.1 ∧ Alike p.2 q.2
  erase := Prod.map erase erase
  alike_iff {p q} := by
    rw [alike_iff, alike_iff, ← Prod.mk.injEq]
    rfl

/-- Names are alike if one is the other at another range. -/
instance : Ranged Name where
  Alike x y := ∃ range, y = x.atRange range
  erase := Name.eraseRange
  alike_iff {x y} := by
    obtain ⟨identity, range⟩ := x
    obtain ⟨identity', range'⟩ := y
    simp [Name.eraseRange, Name.atRange, eq_comm]

/-- Names with the same segments are the same name. -/
theorem QualifiedName.segments_injective : Function.Injective segments := by
  intro q r h
  have hq := ofSegments?_segments q
  rw [h, ofSegments?_segments] at hq
  exact (Option.some.inj hq).symm

/-- The ranges of a name are those of its segments. -/
theorem QualifiedName.segments_eraseRange (q : QualifiedName) :
    q.eraseRange.segments = erase q.segments := by
  show _ = q.segments.map Name.eraseRange
  rw [segments, segments, eraseRange, List.map_append, List.map_singleton]

/-- Qualified names are alike if they are segment by segment. -/
instance : Ranged QualifiedName where
  Alike q r := Alike q.segments r.segments
  erase := QualifiedName.eraseRange
  alike_iff {q r} := by
    rw [alike_iff, ← QualifiedName.segments_eraseRange, ← QualifiedName.segments_eraseRange]
    exact QualifiedName.segments_injective.eq_iff

theorem QualifiedName.segments_erase (q : QualifiedName) :
    (erase q).segments = erase q.segments := segments_eraseRange q

/-- Module names are alike if one is the other at another range. -/
instance : Ranged ModuleName where
  Alike m n := ∃ range, n = m.atRange range
  erase := ModuleName.eraseRange
  alike_iff {m n} := by
    obtain ⟨range, parts, _⟩ := m
    obtain ⟨range', parts', _⟩ := n
    simp [ModuleName.eraseRange, ModuleName.atRange, eq_comm]

/-- The search with all ranges erased. -/
def Name.Search.eraseRange (s : Search) : Search := ⟨erase s.found, erase s.lastAsked, s.calls⟩

/-- Searches are alike if they have found and asked about alike names after as many questions. -/
instance : Ranged Name.Search where
  Alike s t := Alike s.found t.found ∧ Alike s.lastAsked t.lastAsked ∧ s.calls = t.calls
  erase := Name.Search.eraseRange
  alike_iff {s t} := by
    rw [alike_iff, alike_iff, Name.Search.eraseRange, Name.Search.eraseRange,
      Name.Search.mk.injEq]

/-! ## Blind operations -/

/-- The operation has the same result for arguments that are alike. -/
def IgnoresRanges (f : α → γ) : Prop := ∀ ⦃x y⦄, Alike x y → f x = f y

/-- The operation has alike results for arguments that are alike, and erasing the ranges of its
argument erases those of its result. -/
structure CarriesRanges (f : α → β) : Prop where
  /-- Alike arguments have alike results. -/
  alike : ∀ ⦃x y⦄, Alike x y → Alike (f x) (f y)
  /-- The ranges of a result come from the argument. -/
  erase_comm : ∀ x, f (erase x) = erase (f x)

/-- An operation that does not notice erased ranges ignores ranges. -/
theorem ignoresRanges_of_erase {f : α → γ} (h : ∀ x, f (erase x) = f x) : IgnoresRanges f := by
  intro x y hxy
  rw [← h x, alike_iff.mp hxy, h]

/-- An operation that commutes with the erasure of ranges carries them. -/
theorem carriesRanges_of_erase {f : α → β} (h : ∀ x, f (erase x) = erase (f x)) :
    CarriesRanges f where
  alike := by
    intro x y hxy
    rw [alike_iff, ← h x, alike_iff.mp hxy, h]
  erase_comm := h

end MixfixNames
