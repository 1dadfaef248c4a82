/-
# Telling Values Apart

Values with an equality and an order, told apart by the one or sorted by the other. Sorting is
stable, so of values that the order does not tell apart the earlier one stays in front.

Sets that compare hashes do not look at values but at what the values feed to a hasher. That is
a list of items which does not depend on the hasher, and every hash is a digest of it.
-/
import MixfixNames.Text.Basic

namespace MixfixNames

/-! ## Hashing -/

/-- One item that is fed to a hasher. -/
inductive HashItem where
  /-- A number, such as a length or the index of a variant. -/
  | number (n : Nat)
  /-- Some octets at once. -/
  | octets (bytes : List UInt8)
  /-- An interned token, which is told apart from others by its text. -/
  | token (text : Text)
  deriving DecidableEq, Repr, Hashable

/-- Values that can be fed to a hasher. -/
class Feeds (α : Type) where
  /-- What a value feeds, in order. -/
  feed : α → List HashItem

export Feeds (feed)

section Feeds

variable {α : Type} [Feeds α]

/-- What a sequence feeds: its length, and what its items feed one after the other. -/
def feedAll (xs : List α) : List HashItem := .number xs.length :: xs.flatMap feed

/-- The hash that is a given digest of what a value feeds. -/
@[reducible] def hashBy (digest : List HashItem → UInt64) : Hashable α :=
  ⟨fun x => digest (feed x)⟩

instance hashableOfFeeds : Hashable α := hashBy hash

end Feeds

namespace Grouping

variable {α : Type}

/-! ## Equal values and sorted values -/

/-- For each value the index of the first one that it equals. -/
def firstEqual [BEq α] (xs : List α) : List Nat := xs.map fun x => xs.findIdx (· == x)

/-- The indices of the values in stable ascending order. -/
def sortedIndices [Ord α] (xs : List α) : List Nat :=
  (xs.zipIdx.mergeSort fun a b => (compare a.1 b.1).isLE).map Prod.snd

/-- The number of values that equality tells apart. -/
def distinctCount [BEq α] (xs : List α) : Nat := xs.eraseDups.length

/-- The number of values that the order tells apart. -/
def orderedCount [Ord α] (xs : List α) : Nat :=
  (xs.eraseDupsBy fun a b => compare a b == .eq).length

/-- Whether two values are told apart by equality or have the same hash. -/
def hashAgrees [BEq α] [Hashable α] (x y : α) : Bool := x != y || hash x == hash y

/-- Every value has a first one that it equals. -/
theorem length_firstEqual [BEq α] (xs : List α) : (firstEqual xs).length = xs.length := by
  rw [firstEqual, List.length_map]

/-- Sorting keeps every value. -/
theorem length_sortedIndices [Ord α] (xs : List α) :
    (sortedIndices xs).length = xs.length := by
  rw [sortedIndices, List.length_map, List.length_mergeSort, List.length_zipIdx]

end Grouping

end MixfixNames
