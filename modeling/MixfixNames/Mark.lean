/-
# The Mark of Names That Are Not in Scope

A name that failed to resolve is marked by a semicolon in front of its first token. No source file
can spell such a token, so the mark can be taken off again. The mark is put on once: a marked name
stays as it is. Of a qualified name only the outermost segment is marked.
-/
import MixfixNames.Name.Edit
import MixfixNames.QualifiedName

namespace MixfixNames

/-- Values that can be marked as not in scope. -/
class Markable (α : Type) where
  /-- The value with the mark. -/
  mark : α → α
  /-- The value without its mark; nothing if it has none. -/
  strip? : α → Option α

export Markable (mark strip?)

/-- The value without its mark, or the value itself if it has none. -/
def unmark {α : Type} [Markable α] (x : α) : α := (strip? x).getD x

/-- Whether the value has a mark. -/
def isMarked {α : Type} [Markable α] (x : α) : Bool := (strip? x).isSome

/-- Taking off the mark changes nothing where there is none. -/
theorem unmark_of_strip?_eq_none {α : Type} [Markable α] {x : α} (h : strip? x = none) :
    unmark x = x := by
  simp [unmark, h]

/-- Taking off the mark leaves what stands behind it. -/
theorem unmark_of_strip? {α : Type} [Markable α] {x y : α} (h : strip? x = some y) :
    unmark x = y := by
  simp [unmark, h]

/-! ## Tokens -/

namespace Token

/-- The mark. -/
def semicolon : Char := ';'

/-- The token with the mark in front, unless it has one. -/
def mark (s : Text) : Text := if s.head? = some semicolon then s else semicolon :: s

/-- What stands behind the mark of a token. A token that is nothing but the mark has none. -/
def strip? : Text → Option Text
  | [] => none
  | c :: s => if c = semicolon ∧ s ≠ [] then some s else none

/-- A mark is put on once. -/
theorem mark_mark (s : Text) : mark (mark s) = mark s := by
  by_cases h : s.head? = some semicolon <;> simp [mark, h]

end Token

/-- Tokens are marked in front. -/
instance : Markable Text := ⟨Token.mark, Token.strip?⟩

/-! ## Parts and names -/

namespace Part

/-- The parts with their first token marked; without a token they stay as they are. -/
def markFirst (parts : List Part) : List Part :=
  (editFirst? (fun t => some (Token.mark t)) parts).getD parts

/-- The parts without the mark of their first token. -/
def stripFirst? (parts : List Part) : Option (List Part) := editFirst? Token.strip? parts

end Part

/-- Parts are marked in their first token. -/
instance : Markable (List Part) := ⟨Part.markFirst, Part.stripFirst?⟩

namespace Name

/-- The name with its first token marked; the wildcard has none and stays as it is. -/
def mark (x : Name) : Name :=
  match x.identity with
  | .anonymous _ => x
  | .identifier parts => ofParts x.range (Part.markFirst parts)

/-- The name without the mark of its first token. -/
def strip? (x : Name) : Option Name :=
  match x.identity with
  | .anonymous _ => none
  | .identifier parts => (Part.stripFirst? parts).map (ofParts x.range)

/-- Marking keeps the range. -/
@[simp] theorem range_mark (x : Name) : x.mark.range = x.range := by
  obtain ⟨identity, range⟩ := x
  cases identity <;> rfl

end Name

/-- Names are marked in their first token. -/
instance : Markable Name := ⟨Name.mark, Name.strip?⟩

/-! ## Qualified names -/

namespace QualifiedName

/-- The name with its outermost segment marked. -/
def mark (q : QualifiedName) : QualifiedName :=
  match q.qualifiers with
  | [] => simple q.last.mark
  | x :: xs => ⟨x.mark :: xs, q.last⟩

/-- The name without the mark of its outermost segment. -/
def strip? (q : QualifiedName) : Option QualifiedName :=
  match q.qualifiers with
  | [] => q.last.strip?.map simple
  | x :: xs => x.strip?.map fun y => ⟨y :: xs, q.last⟩

/-- Marking changes the first segment alone. -/
theorem segments_mark (q : QualifiedName) :
    q.mark.segments = q.first.mark :: q.segments.tail := by
  obtain ⟨qualifiers, last⟩ := q
  cases qualifiers <;> rfl

end QualifiedName

/-- Qualified names are marked in their outermost segment. -/
instance : Markable QualifiedName := ⟨QualifiedName.mark, QualifiedName.strip?⟩

end MixfixNames
