/-
# What Is Fed to a Hasher

Two values go into one bucket of a set, whatever the hasher, if they feed it the same items. For
equal values this has to be so; for others it should not be, but need not be wrong. Here it is
worked out what the items tell about a value: `FeedsKey key` says that it is the key and nothing
else. This is stated for items that are followed by others, since most values are fed as a part of
greater ones.

Parts, names, qualified names and module names feed all that equality looks at. A path does not: the
root feeds nothing, so that an absolute path feeds the same as the relative one behind its root.
-/
import Mathlib.Logic.Function.Basic
import MixfixNames.Proofs.Identity.Order

namespace MixfixNames

section FeedsKey

variable {α κ : Type} [Feeds α]

/-- What a value feeds tells its key and nothing else of it, and what follows can be told from it.
-/
def FeedsKey (key : α → κ) : Prop :=
  ∀ (x y : α) (s t : List HashItem), feed x ++ s = feed y ++ t ↔ key x = key y ∧ s = t

/-- Values feed the same exactly if their keys are the same. -/
theorem FeedsKey.feed_eq_iff {key : α → κ} (h : FeedsKey key) (x y : α) :
    feed x = feed y ↔ key x = key y := by
  simpa using h x y [] []

/-- Of sequences of the same length it is told what the items are. -/
theorem FeedsKey.flatMap_append_eq_iff (h : FeedsKey (id : α → α)) {xs ys : List α}
    (hlength : xs.length = ys.length) (s t : List HashItem) :
    xs.flatMap feed ++ s = ys.flatMap feed ++ t ↔ xs = ys ∧ s = t := by
  induction xs generalizing ys with
  | nil =>
    rw [List.eq_nil_of_length_eq_zero hlength.symm]
    simp
  | cons x xs ih =>
    cases ys with
    | nil => cases hlength
    | cons y ys =>
      have hxy := h x y (xs.flatMap feed ++ s) (ys.flatMap feed ++ t)
      rw [List.flatMap_cons, List.flatMap_cons, List.append_assoc, List.append_assoc, hxy,
        ih (Nat.succ.inj hlength), List.cons.injEq, and_assoc]
      rfl

/-- A sequence can be told as its length comes first. -/
theorem FeedsKey.feedAll_append_eq_iff (h : FeedsKey (id : α → α)) (xs ys : List α)
    (s t : List HashItem) : feedAll xs ++ s = feedAll ys ++ t ↔ xs = ys ∧ s = t := by
  rw [feedAll, feedAll, List.cons_append, List.cons_append, List.cons.injEq, HashItem.number.injEq]
  constructor
  · rintro ⟨hlength, hrest⟩
    exact (h.flatMap_append_eq_iff hlength s t).mp hrest
  · rintro ⟨rfl, rfl⟩
    exact ⟨rfl, rfl⟩

end FeedsKey

/-! ## Names -/

theorem feedsKey_part : FeedsKey (id : Part → Part) := by
  intro a b s t
  cases a <;> cases b <;> simp [feed]

/-- An identity can be told, since wildcards and identifiers feed different numbers first. -/
theorem feedsKey_identity : FeedsKey (id : Identity → Identity) := by
  intro a b s t
  cases a <;> cases b
  case identifier.identifier ps qs =>
    have hparts := feedsKey_part.feedAll_append_eq_iff ps qs s t
    simpa [feed] using hparts
  case anonymous.anonymous i j =>
    cases i
    cases j
    simp [feed]
  all_goals simp [feed]

/-- A name feeds what it is and not where it was written. -/
theorem feedsKey_name : FeedsKey Name.identity := fun x y =>
  feedsKey_identity x.identity y.identity

namespace NamePath

theorem feed_simple (x : Name) : feed (simple x) = .number 1 :: feed x := rfl

theorem feed_qualified (x : Name) (rest : NamePath) :
    feed (qualified x rest) = .number 0 :: (feed x ++ feed rest) := rfl

/-- A path and the qualified name with its segments feed the same. -/
theorem feed_toQualifiedName (p : NamePath) : feed p.toQualifiedName = feed p := by
  induction p with
  | simple x => exact List.append_nil _
  | qualified x rest ih => exact congrArg (fun items => .number 0 :: (feed x ++ items)) ih

/-- A path can be told because every level says whether it is the last. -/
theorem feedsKey_path : FeedsKey fun p : NamePath => p.toQualifiedName.levels := by
  intro p q s t
  induction p generalizing q with
  | simple x =>
    cases q with
    | simple y =>
      have hname := feedsKey_name x y s t
      simp [feed_simple, levels_simple, hname]
    | qualified y q => simp [feed_simple, feed_qualified, levels_simple, levels_qualified]
  | qualified x p ih =>
    cases q with
    | simple y => simp [feed_simple, feed_qualified, levels_simple, levels_qualified]
    | qualified y q =>
      have hname := feedsKey_name x y (feed p ++ s) (feed q ++ t)
      simp [feed_qualified, levels_qualified, hname, ih, and_assoc]

end NamePath

/-- A qualified name feeds its levels. -/
theorem feedsKey_qualifiedName : FeedsKey QualifiedName.levels := by
  intro q r
  rw [← NamePath.toQualifiedName_path q, ← NamePath.toQualifiedName_path r,
    NamePath.feed_toQualifiedName, NamePath.feed_toQualifiedName]
  exact NamePath.feedsKey_path q.path r.path

/-- A module name feeds its parts. -/
theorem feedsKey_moduleName : FeedsKey ModuleName.parts := by
  intro m n s t
  have hfeed : ∀ m : ModuleName, feed m = .number m.parts.length :: m.parts.map .token :=
    fun _ => rfl
  rw [hfeed, hfeed, List.cons_append, List.cons_append, List.cons.injEq, HashItem.number.injEq]
  constructor
  · rintro ⟨hlength, hrest⟩
    obtain ⟨htokens, rfl⟩ := List.append_inj hrest (by rwa [List.length_map, List.length_map])
    exact ⟨List.map_injective_iff.mpr (fun _ _ => HashItem.token.inj) htokens, rfl⟩
  · rintro ⟨hparts, rfl⟩
    rw [hparts]
    exact ⟨rfl, rfl⟩

/-! ## Paths -/

/-- Octets end where the first other item comes. -/
theorem map_octets_append_number_eq_iff {bs cs : List (List UInt8)} {m n : ℕ}
    {s t : List HashItem} :
    bs.map .octets ++ .number m :: s = cs.map .octets ++ .number n :: t ↔
      bs = cs ∧ m = n ∧ s = t := by
  induction bs generalizing cs with
  | nil => cases cs <;> simp
  | cons b bs ih => cases cs <;> simp [ih, and_assoc]

namespace Component

/-- The component that a piece denotes which is fed to a hasher. -/
def ofFed (piece : List UInt8) : Component :=
  if piece = [dot] then current else if piece = [dot, dot] then parent else normal piece

/-- Different pieces that are fed denote different components. -/
theorem ofFed_injective : Function.Injective ofFed := by
  intro a b h
  unfold ofFed at h
  split_ifs at h <;> simp_all

theorem ofFed_ne_root (piece : List UInt8) : ofFed piece ≠ root := by
  unfold ofFed
  split_ifs <;> simp

/-- Behind a separator a piece is fed exactly if it denotes something. -/
theorem ofPiece?_eq (piece : List UInt8) :
    ofPiece? piece = if piece ≠ [] ∧ piece ≠ [dot] then some (ofFed piece) else none := by
  unfold ofPiece? ofFed
  split_ifs <;> simp_all

/-- At the start of a path a piece is fed unless it is empty and so the root. -/
theorem ofFirstPiece?_eq (piece : List UInt8) :
    ofFirstPiece? piece = some (if piece = [] then root else ofFed piece) := by
  unfold ofFirstPiece? ofPiece? ofFed
  split_ifs <;> simp_all

end Component

namespace Path

/-- The components of a path without the root. -/
def withoutRoot (p : Path) : List Component := p.components.filter (· ≠ .root)

/-- Behind the root the components of a path are those of the pieces that it feeds. -/
theorem withoutRoot_eq (p : Path) : p.withoutRoot = p.fedPieces.map Component.ofFed := by
  have hfed : ∀ bs : List (List UInt8),
      (bs.map Component.ofFed).filter (· ≠ .root) = bs.map Component.ofFed := by
    intro bs
    simp [List.filter_eq_self, Component.ofFed_ne_root]
  have hrest : ∀ rest : List (List UInt8), rest.filterMap Component.ofPiece? =
      (rest.filter fun b => b ≠ [] ∧ b ≠ [dot]).map Component.ofFed := by
    intro rest
    induction rest with
    | nil => rfl
    | cons b rest ih =>
      rw [List.filterMap_cons, Component.ofPiece?_eq, List.filter_cons, ih]
      split_ifs <;> simp_all
  obtain ⟨first, rest, hs⟩ := List.exists_cons_of_ne_nil (List.splitOn_ne_nil slash p.bytes)
  unfold withoutRoot components pieces fedPieces
  by_cases hp : p.bytes = []
  · rw [if_pos hp, hp]
    rfl
  · rw [if_neg hp, hs, annotate, List.filterMap_cons, Component.ofFirstPiece?_eq]
    simp only [List.filterMap_map, Function.comp_def, hrest, List.filter_cons, hfed]
    by_cases hfirst : first = []
    · simp [hfirst]
    · simp [hfirst, Component.ofFed_ne_root]

/-- Two paths feed the same pieces exactly if their components behind the root are the same. -/
theorem withoutRoot_eq_iff {p q : Path} :
    p.withoutRoot = q.withoutRoot ↔ p.fedPieces = q.fedPieces := by
  rw [withoutRoot_eq, withoutRoot_eq]
  exact (List.map_injective_iff.mpr Component.ofFed_injective).eq_iff

/-- A path feeds its components but the root. -/
theorem feedsKey_withoutRoot : FeedsKey withoutRoot := by
  intro p q s t
  have hfeed : ∀ (p : Path) (s : List HashItem), feed p ++ s =
      p.fedPieces.map .octets ++ .number (mixLengths p.fedPieces).toNat :: s :=
    fun p s => List.append_assoc ..
  rw [hfeed, hfeed, map_octets_append_number_eq_iff, withoutRoot_eq_iff]
  constructor
  · rintro ⟨hpieces, -, hst⟩
    exact ⟨hpieces, hst⟩
  · rintro ⟨hpieces, hst⟩
    exact ⟨hpieces, by rw [hpieces], hst⟩

end Path

/-! ## Ranges -/

namespace SourceRange

/-- What is told of a range by what it feeds: its place, but not whether the path of the file starts
at the root. -/
def fedPlace? : SourceRange → Option (List Component × ℕ × ℕ)
  | unknown => none
  | known file start stop => some (file.withoutRoot, start, stop)

/-- Equal places are told alike. -/
theorem fedPlace?_eq_of_place?_eq {r r' : SourceRange} (h : r.place? = r'.place?) :
    r.fedPlace? = r'.fedPlace? := by
  cases r <;> cases r' <;> simp_all [place?, fedPlace?, Path.withoutRoot]

/-- A range feeds its place but the root. -/
theorem feedsKey_fedPlace? : FeedsKey fedPlace? := by
  intro r r' u v
  cases r <;> cases r'
  case known.known f s e g s' e' =>
    have hfile := Path.feedsKey_withoutRoot f g (.number s :: .number e :: u)
      (.number s' :: .number e' :: v)
    have hfeed : ∀ (f : Path) (s e : ℕ) (u : List HashItem), feed (known f s e) ++ u =
        .number 1 :: (feed f ++ .number s :: .number e :: u) := by
      intro f s e u
      exact congrArg (HashItem.number 1 :: ·) (List.append_assoc ..)
    rw [hfeed, hfeed, List.cons.injEq, hfile]
    simp [fedPlace?, and_assoc]
  all_goals simp [feed, fedPlace?]

end SourceRange

end MixfixNames
