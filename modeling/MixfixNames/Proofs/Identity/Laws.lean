/-
# Equality, Order and Hash

Equality, order and hash of a type are written apart from each other, but they have to agree, or a
value that is put into a set is not found there. Equality and order have to look at one key, and
values of one key have to feed the same to a hasher: then sets that compare hashes and sets that
compare by order hold as many values as there are keys. The main statement, `identity_laws`, says
this of parts, names, qualified names, module names and ranges, together with their orders, and also
what of a value it feeds: its key, or in the case of a range the key without the root.
-/
import Mathlib.Data.Finset.Card
import MixfixNames.Proofs.Identity.Feeds
import MixfixNames.Proofs.Identity.Order

namespace MixfixNames

variable {α κ : Type} [DecidableEq κ] {key : α → κ}

/-! ## Counting keys -/

/-- Values that differ in their keys are as many as their keys. -/
theorem length_eq_card_keys {xs : List α} (h : xs.Pairwise fun x y => key x ≠ key y) :
    xs.length = (xs.map key).toFinset.card := by
  have hnodup : (xs.map key).Nodup := List.pairwise_map.mpr h
  rw [List.toFinset_card_of_nodup hnodup, List.length_map]

/-- Without those whose key occurred before, values are as many as their keys. -/
theorem length_eraseDupsBy_eq_card_keys {r : α → α → Bool}
    (hr : ∀ x y, r x y = true ↔ key x = key y) (xs : List α) :
    (xs.eraseDupsBy r).length = (xs.map key).toFinset.card := by
  match xs with
  | [] => rfl
  | x :: xs =>
    let others := xs.filter fun y => r y x = false
    have hothers : ∀ y, y ∈ others ↔ y ∈ xs ∧ key y ≠ key x := by
      intro y
      simp [others, ← hr]
    have hfresh : key x ∉ (others.map key).toFinset := by
      simp [hothers]
    have hkeys : ((x :: xs).map key).toFinset = insert (key x) (others.map key).toFinset := by
      ext k
      simp only [List.map_cons, List.toFinset_cons, Finset.mem_insert, List.mem_toFinset,
        List.mem_map, hothers]
      grind
    rw [List.eraseDupsBy_cons, List.length_cons, length_eraseDupsBy_eq_card_keys hr others, hkeys,
      Finset.card_insert_of_notMem hfresh]
termination_by xs.length
decreasing_by exact Nat.lt_succ_of_le (List.length_filter_le _ xs)

section Sets

variable [BEq α] (hbeq : ∀ x y : α, (x == y) = true ↔ key x = key y)

include hbeq

/-- Lists in which the same values are found have the same keys. -/
theorem toFinset_map_key_eq {xs ys : List α} (h : ∀ x, ys.contains x = xs.contains x) :
    (ys.map key).toFinset = (xs.map key).toFinset := by
  have hmem : ∀ (zs : List α) (k : κ), k ∈ zs.map key ↔ ∃ x, key x = k ∧ zs.contains x = true := by
    intro zs k
    simp only [List.mem_map, List.contains_iff_exists_mem_beq, hbeq]
    constructor
    · rintro ⟨z, hz, rfl⟩
      exact ⟨z, rfl, z, hz, rfl⟩
    · rintro ⟨x, rfl, z, hz, hxz⟩
      exact ⟨z, hz, hxz.symm⟩
  ext k
  rw [List.mem_toFinset, List.mem_toFinset, hmem, hmem]
  simp only [h]

/-- A set that compares hashes holds as many values as there are keys. -/
theorem size_hashSet_eq_card_keys [Hashable α] [EquivBEq α] [LawfulHashable α] (xs : List α) :
    (Std.HashSet.ofList xs).size = (xs.map key).toFinset.card := by
  have hsame : ∀ x, (Std.HashSet.ofList xs).toList.contains x = xs.contains x := by
    intro x
    rw [Std.HashSet.contains_toList, Std.HashSet.contains_ofList]
  rw [← Std.HashSet.length_toList, ← toFinset_map_key_eq hbeq hsame]
  apply length_eq_card_keys
  exact Std.HashSet.distinct_toList.imp fun h => mt (hbeq _ _).mpr (Bool.eq_false_iff.mp h)

/-- A set that compares by order holds as many values as there are keys. -/
theorem size_treeSet_eq_card_keys [Ord α] [Std.TransOrd α] [Std.LawfulBEqOrd α] (xs : List α) :
    (Std.TreeSet.ofList xs).size = (xs.map key).toFinset.card := by
  have hsame : ∀ x, (Std.TreeSet.ofList xs).toList.contains x = xs.contains x := by
    intro x
    rw [Std.TreeSet.contains_toList, Std.TreeSet.contains_ofList]
  rw [← Std.TreeSet.length_toList, ← toFinset_map_key_eq hbeq hsame]
  apply length_eq_card_keys
  refine Std.TreeSet.distinct_toList.imp fun h => mt (fun hkey => ?_) h
  exact Std.LawfulBEqOrd.compare_eq_iff_beq.mpr ((hbeq _ _).mpr hkey)

end Sets

/-! ## Keys -/

/-- The key is all that equality and order of a type look at, and what is fed to a hasher depends on
nothing else. The order is a total one, in which a value is less than those that it precedes, and
values are counted by their keys. -/
structure IsKey [BEq α] [Ord α] [Feeds α] (key : α → κ) (Precedes : α → α → Prop) : Prop where
  /-- Values are equal if their keys are. -/
  beq_iff : ∀ x y : α, (x == y) = true ↔ key x = key y
  /-- Values are not told apart by the order if their keys are equal. -/
  compare_eq_eq_iff : ∀ x y : α, compare x y = .eq ↔ key x = key y
  /-- A value is less than those that it precedes. -/
  compare_eq_lt_iff : ∀ x y : α, compare x y = .lt ↔ Precedes x y
  /-- A value is greater than those that precede it. -/
  compare_eq_gt_iff : ∀ x y : α, compare x y = .gt ↔ Precedes y x
  /-- Values that are at most each other are equal. -/
  beq_of_isLE : ∀ x y : α, (compare x y).isLE = true → (compare y x).isLE = true → (x == y) = true
  /-- The order is transitive. -/
  isLE_trans : ∀ x y z : α,
    (compare x y).isLE = true → (compare y z).isLE = true → (compare x z).isLE = true
  /-- Of two values one is at most the other. -/
  isLE_total : ∀ x y : α, (compare x y).isLE = true ∨ (compare y x).isLE = true
  /-- Equal values feed the same. -/
  feed_eq_of_beq : ∀ x y : α, (x == y) = true → feed x = feed y
  /-- A set that compares hashes holds as many values as there are keys, whatever the hasher. -/
  size_hashSet : ∀ (digest : List HashItem → UInt64) (xs : List α),
    (@Std.HashSet.ofList α _ (hashBy digest) xs).size = (xs.map key).toFinset.card
  /-- A set that compares by order holds as many values as there are keys. -/
  size_treeSet : ∀ xs : List α, (Std.TreeSet.ofList xs).size = (xs.map key).toFinset.card
  /-- Equality tells as many values apart as there are keys. -/
  distinctCount_eq : ∀ xs : List α, Grouping.distinctCount xs = (xs.map key).toFinset.card
  /-- The order tells as many values apart as there are keys. -/
  orderedCount_eq : ∀ xs : List α, Grouping.orderedCount xs = (xs.map key).toFinset.card

/-- A transitive comparison has a key if equality and order agree on it and no more is fed to a
hasher. -/
theorem isKey_of_transOrd [BEq α] [Ord α] [Feeds α] [Std.TransOrd α] {Precedes : α → α → Prop}
    (hbeq : ∀ x y : α, (x == y) = true ↔ key x = key y)
    (heq : ∀ x y : α, compare x y = .eq ↔ key x = key y)
    (hlt : ∀ x y : α, compare x y = .lt ↔ Precedes x y)
    (hfeed : ∀ x y : α, key x = key y → feed x = feed y) : IsKey key Precedes := by
  have hlawful : Std.LawfulBEqOrd α := ⟨by intro x y; rw [heq, hbeq]⟩
  exact {
    beq_iff := hbeq
    compare_eq_eq_iff := heq
    compare_eq_lt_iff := hlt
    compare_eq_gt_iff := fun x y => Std.OrientedCmp.gt_iff_lt.trans (hlt y x)
    beq_of_isLE := fun x y hxy hyx => by
      rw [hbeq, ← heq]
      exact Std.OrientedCmp.isLE_antisymm hxy hyx
    isLE_trans := fun x y z => Std.TransOrd.isLE_trans
    isLE_total := fun x y => by
      rw [Std.OrientedOrd.eq_swap (a := y)]
      cases compare x y <;> decide
    feed_eq_of_beq := fun x y hxy => hfeed x y ((hbeq x y).mp hxy)
    size_hashSet := fun digest xs => by
      let _ : Hashable α := hashBy digest
      have hhash : LawfulHashable α :=
        ⟨fun x y hxy => congrArg digest (hfeed x y ((hbeq x y).mp hxy))⟩
      exact size_hashSet_eq_card_keys hbeq xs
    size_treeSet := size_treeSet_eq_card_keys hbeq
    distinctCount_eq := length_eraseDupsBy_eq_card_keys hbeq
    orderedCount_eq := length_eraseDupsBy_eq_card_keys fun x y => by rw [beq_iff_eq, heq] }

/-- Parts, names, qualified names, module names and ranges are compared and ordered by a key each,
in the orders that are given for them, and equal ones feed the same to a hasher. Parts, names,
qualified names and module names that feed the same are equal. Ranges that feed the same are equal
but for the root: they have the same ends, and the paths of their files have the same components
behind it. -/
theorem identity_laws :
    (IsKey (id : Part → Part) Part.Precedes ∧ ∀ x y : Part, feed x = feed y ↔ x = y) ∧
      (IsKey Name.identity Name.Precedes ∧
        ∀ x y : Name, feed x = feed y ↔ x.identity = y.identity) ∧
      (IsKey QualifiedName.levels QualifiedName.Precedes ∧
        ∀ x y : QualifiedName, feed x = feed y ↔ x.levels = y.levels) ∧
      (IsKey ModuleName.parts ModuleName.Precedes ∧
        ∀ x y : ModuleName, feed x = feed y ↔ x.parts = y.parts) ∧
      IsKey SourceRange.place? SourceRange.Precedes ∧
        ∀ x y : SourceRange, feed x = feed y ↔ x.fedPlace? = y.fedPlace? := by
  have hpart := feedsKey_part.feed_eq_iff
  have hname := feedsKey_name.feed_eq_iff
  have hqualified := feedsKey_qualifiedName.feed_eq_iff
  have hmodule := feedsKey_moduleName.feed_eq_iff
  have hrange := SourceRange.feedsKey_fedPlace?.feed_eq_iff
  refine ⟨⟨?_, hpart⟩, ⟨?_, hname⟩, ⟨?_, hqualified⟩, ⟨?_, hmodule⟩, ?_, hrange⟩
  · exact isKey_of_transOrd (fun _ _ => beq_iff_eq) (fun _ _ => Std.LawfulEqOrd.compare_eq_iff_eq)
      Part.compare_eq_lt_iff fun x y => (hpart x y).mpr
  · exact isKey_of_transOrd (fun _ _ => Name.beq_iff) Name.compare_eq_eq_iff
      Name.compare_eq_lt_iff fun x y => (hname x y).mpr
  · exact isKey_of_transOrd (fun _ _ => QualifiedName.beq_iff) QualifiedName.compare_eq_eq_iff
      QualifiedName.compare_eq_lt_iff fun x y => (hqualified x y).mpr
  · exact isKey_of_transOrd (fun _ _ => ModuleName.beq_iff) ModuleName.compare_eq_eq_iff
      ModuleName.compare_eq_lt_iff fun x y => (hmodule x y).mpr
  · exact isKey_of_transOrd SourceRange.beq_iff SourceRange.compare_eq_eq_iff
      SourceRange.compare_eq_lt_iff fun x y hxy =>
        (hrange x y).mpr (SourceRange.fedPlace?_eq_of_place?_eq hxy)

/-- Ranges in an absolute path and in the relative path behind its root feed the same to a hasher,
but they are not equal. -/
theorem SourceRange.root_is_not_fed :
    feed (known (Path.ofText "/a".toList) 0 1) = feed (known (Path.ofText "a".toList) 0 1) ∧
      (known (Path.ofText "/a".toList) 0 1 == known (Path.ofText "a".toList) 0 1) = false ∧
      compare (known (Path.ofText "/a".toList) 0 1) (known (Path.ofText "a".toList) 0 1) = .lt := by
  decide

end MixfixNames
