/-
# What Covers Many Ranges

Ranges are fused from left to right, so the first known one decides on the file, and ranges in other
files are passed over wherever they stand. The main statement, `cover_closed_form`, says what comes
out without going through the ranges one by one: the file of the first known range, the least start
and the greatest end in that file. Fusing is not associative, but it is on ranges of one file, and
then neither the order of the ranges nor the groups that they are fused in matter.
-/
import Mathlib.Data.List.Induction
import Mathlib.Order.Bounds.Basic
import MixfixNames.Proofs.Identity.Order

namespace MixfixNames

namespace SourceRange

/-! ## Ranges in one file -/

/-- The starts and ends of those ranges that are in the file, however it is spelled there. -/
def spansIn (file : Path) (ranges : List SourceRange) : Set (ℕ × ℕ) :=
  {span | ∃ g, .known g span.1 span.2 ∈ ranges ∧ (g == file) = true}

/-- The spans of two sequences in a row are those of both. -/
theorem spansIn_append (file : Path) (xs ys : List SourceRange) :
    spansIn file (xs ++ ys) = spansIn file xs ∪ spansIn file ys := by
  ext span
  simp only [spansIn, List.mem_append, or_and_right, exists_or, Set.mem_ofPred_eq, Set.mem_union]

/-- The spans depend on which ranges there are, and not on their order or on how the file is
spelled. -/
theorem spansIn_congr {f g : Path} (h : (f == g) = true) {xs ys : List SourceRange}
    (hmem : ∀ r, r ∈ xs ↔ r ∈ ys) : spansIn f xs = spansIn g ys := by
  ext span
  simp only [spansIn, Set.mem_ofPred_eq, hmem, Path.beq_iff, Path.beq_iff.mp h]

/-- Ranges in other files have no spans in the file. -/
theorem spansIn_eq_empty {file : Path} {ranges : List SourceRange}
    (h : ∀ r ∈ ranges, ∀ g ∈ r.file?, ¬ (g == file) = true) : spansIn file ranges = ∅ := by
  rw [Set.eq_empty_iff_forall_notMem]
  rintro span ⟨g, hg, hfile⟩
  exact h _ hg g rfl hfile

/-- Unknown ranges have no spans. -/
theorem spansIn_of_forall_unknown {ranges : List SourceRange} (h : ∀ r ∈ ranges, r = .unknown)
    (file : Path) : spansIn file ranges = ∅ := by
  apply spansIn_eq_empty
  intro r hr g hg
  rw [h r hr] at hg
  cases hg

theorem file?_eq_none_iff {r : SourceRange} : r.file? = none ↔ r = .unknown := by
  cases r with
  | unknown => simp [file?]
  | known file start stop => simp [file?]

/-- There is no first known range exactly if nothing is known of any. -/
theorem findSome?_file?_eq_none_iff {ranges : List SourceRange} :
    ranges.findSome? file? = none ↔ ∀ r ∈ ranges, r = .unknown := by
  simp only [List.findSome?_eq_none_iff, file?_eq_none_iff]

/-- All of the ranges of which anything is known are in the same file. -/
def InOneFile (ranges : List SourceRange) : Prop :=
  ∀ r ∈ ranges, ∀ s ∈ ranges, ∀ f ∈ r.file?, ∀ g ∈ s.file?, (f == g) = true

theorem inOneFile_singleton (r : SourceRange) : InOneFile [r] := by
  simp only [InOneFile, List.mem_singleton, forall_eq]
  intro f hf g hg
  rw [Option.mem_unique hf hg]
  exact Path.beq_iff.mpr rfl

/-- Fewer ranges are still in one file. -/
theorem InOneFile.of_subset {xs ys : List SourceRange} (h : InOneFile ys) (hsub : xs ⊆ ys) :
    InOneFile xs :=
  fun r hr s hs => h r (hsub hr) s (hsub hs)

/-! ## The closed form -/

/-- What covers the ranges is unknown if they all are. Otherwise it is in the file of the first
known range, spelled as there, and goes from the least start to the greatest end in that file. -/
inductive IsCover (ranges : List SourceRange) : SourceRange → Prop
  /-- Nothing is known of the ranges. -/
  | unknown (h : ∀ r ∈ ranges, r = .unknown) : IsCover ranges .unknown
  /-- There is a first known range, and its file decides. -/
  | known {file : Path} {start stop : ℕ} (hfile : ranges.findSome? file? = some file)
    (hstart : IsLeast (Prod.fst '' spansIn file ranges) start)
    (hstop : IsGreatest (Prod.snd '' spansIn file ranges) stop) :
    IsCover ranges (.known file start stop)

theorem isCover_singleton (r : SourceRange) : IsCover [r] r := by
  cases r with
  | unknown => exact .unknown fun r hr => List.mem_singleton.mp hr
  | known file start stop =>
    have hspans : spansIn file [.known file start stop] = {(start, stop)} := by
      ext ⟨a, b⟩
      simp only [spansIn, List.mem_singleton, known.injEq, Set.mem_ofPred_eq,
        Set.mem_singleton_iff, Prod.mk.injEq]
      constructor
      · rintro ⟨g, ⟨-, h⟩, -⟩
        exact h
      · rintro h
        exact ⟨file, ⟨rfl, h⟩, Path.beq_iff.mpr rfl⟩
    refine .known rfl ?_ ?_
    · rw [hspans, Set.image_singleton]
      exact isLeast_singleton
    · rw [hspans, Set.image_singleton]
      exact isGreatest_singleton

section Append

variable {xs ys : List SourceRange} {file : Path} {start stop start' stop' : ℕ}

/-- Unknown ranges in front of others do not count. -/
theorem IsCover.append_left {r : SourceRange} (hx : ∀ r ∈ xs, r = .unknown) (hy : IsCover ys r) :
    IsCover (xs ++ ys) r := by
  rcases hy with hy | ⟨hfile, hstart, hstop⟩
  · exact .unknown fun r hr => (List.mem_append.mp hr).elim (hx r) (hy r)
  · have hnone : xs.findSome? file? = none := findSome?_file?_eq_none_iff.mpr hx
    refine .known ?_ ?_ ?_
    · rw [List.findSome?_append, hnone, Option.none_or, hfile]
    · rwa [spansIn_append, spansIn_of_forall_unknown hx, Set.empty_union]
    · rwa [spansIn_append, spansIn_of_forall_unknown hx, Set.empty_union]

/-- Ranges behind a known one do not count unless they are in its file. -/
theorem IsCover.append_right (hx : IsCover xs (.known file start stop))
    (hy : spansIn file ys = ∅) : IsCover (xs ++ ys) (.known file start stop) := by
  obtain _ | ⟨hfile, hstart, hstop⟩ := hx
  refine .known ?_ ?_ ?_
  · rw [List.findSome?_append, hfile, Option.some_or]
  · rwa [spansIn_append, hy, Set.union_empty]
  · rwa [spansIn_append, hy, Set.union_empty]

/-- Behind a known range the ranges in its file widen it, wherever they stand. -/
theorem IsCover.append_of_spansIn (hx : IsCover xs (.known file start stop))
    (hstart' : IsLeast (Prod.fst '' spansIn file ys) start')
    (hstop' : IsGreatest (Prod.snd '' spansIn file ys) stop') :
    IsCover (xs ++ ys) (.known file (min start start') (max stop stop')) := by
  obtain _ | ⟨hfile, hstart, hstop⟩ := hx
  refine .known ?_ ?_ ?_
  · rw [List.findSome?_append, hfile, Option.some_or]
  · rw [spansIn_append, Set.image_union]
    exact hstart.union hstart'
  · rw [spansIn_append, Set.image_union]
    exact hstop.union hstop'

/-- Ranges that come behind others are covered together with them by fusing what covers either, if
they are in one file. Of ranges in several files only those in the first one are left in what covers
them, and the others might have been in the file of the ranges before. -/
theorem IsCover.append {r s : SourceRange} (hx : IsCover xs r) (hy : IsCover ys s)
    (hone : InOneFile ys) : IsCover (xs ++ ys) (r.fuse s) := by
  cases r with
  | unknown =>
    obtain hx | _ := hx
    rw [unknown_fuse]
    exact hy.append_left hx
  | known file start stop =>
    rcases hy with hy | @⟨g, start', stop', hfile', hstart', hstop'⟩
    · rw [fuse_unknown]
      exact hx.append_right (spansIn_of_forall_unknown hy file)
    · by_cases hfg : (file == g) = true
      · have hspans : spansIn file ys = spansIn g ys := spansIn_congr hfg fun _ => Iff.rfl
        rw [fuse, if_pos hfg]
        exact hx.append_of_spansIn (hspans ▸ hstart') (hspans ▸ hstop')
      · rw [fuse, if_neg hfg]
        refine hx.append_right (spansIn_eq_empty ?_)
        -- the known ranges behind are all in `g`, so none of them is in the other file
        intro r hr f hf hsame
        obtain ⟨first, hmem, hg⟩ := List.exists_of_findSome?_eq_some hfile'
        have hrest := hone r hr first hmem f hf g hg
        rw [Path.beq_iff] at hrest hsame hfg
        exact hfg (hsame.symm.trans hrest)

end Append

/-- The cover is what the closed form says. -/
theorem isCover_cover (ranges : List SourceRange) : IsCover ranges (cover ranges) := by
  -- a last range alone is in one file, whatever files the ranges before it are in
  induction ranges using List.reverseRecOn with
  | nil => exact .unknown fun r hr => absurd hr List.not_mem_nil
  | append_singleton ranges r ih =>
    rw [cover_concat]
    exact ih.append (isCover_singleton r) (inOneFile_singleton r)

/-- The closed form says of one range only that it is the cover. -/
theorem IsCover.unique {ranges : List SourceRange} {r s : SourceRange} (hr : IsCover ranges r)
    (hs : IsCover ranges s) : r = s := by
  rcases hr with hr | ⟨hfile, hstart, hstop⟩ <;> rcases hs with hs | ⟨hfile', hstart', hstop'⟩
  · rfl
  · rw [findSome?_file?_eq_none_iff.mpr hr] at hfile'
    cases hfile'
  · rw [findSome?_file?_eq_none_iff.mpr hs] at hfile
    cases hfile
  · obtain rfl := Option.some.inj (hfile.symm.trans hfile')
    rw [hstart.unique hstart', hstop.unique hstop']

/-- The closed form characterizes the cover. -/
theorem cover_eq_iff {ranges : List SourceRange} {r : SourceRange} :
    cover ranges = r ↔ IsCover ranges r := by
  constructor
  · rintro rfl
    exact isCover_cover ranges
  · exact (isCover_cover ranges).unique

/-! ## Order and grouping -/

/-- What covers ranges of one file is the same place for all lists of the same ranges. -/
theorem IsCover.beq_of_mem_iff {xs ys : List SourceRange} {r s : SourceRange} (hr : IsCover xs r)
    (hs : IsCover ys s) (hmem : ∀ a, a ∈ xs ↔ a ∈ ys) (hone : InOneFile xs) : (r == s) = true := by
  rcases hr with hr | ⟨hfile, hstart, hstop⟩
  · have hys : IsCover ys .unknown := .unknown fun a ha => hr a ((hmem a).mpr ha)
    rw [hs.unique hys]
    rfl
  · obtain ⟨a, ha, hfa⟩ := List.exists_of_findSome?_eq_some hfile
    rcases hs with hs | ⟨hfile', hstart', hstop'⟩
    · rw [hs a ((hmem a).mp ha)] at hfa
      cases hfa
    · obtain ⟨b, hb, hfb⟩ := List.exists_of_findSome?_eq_some hfile'
      have hfg := hone a ha b ((hmem b).mpr hb) _ hfa _ hfb
      rw [spansIn_congr hfg hmem] at hstart hstop
      rw [beq_iff, place?, place?, Path.beq_iff.mp hfg, hstart.unique hstart',
        hstop.unique hstop']

/-- Ranges that are fused in groups, and the groups with each other. -/
inductive Fusion where
  /-- A group of no ranges. -/
  | nothing
  /-- A single range. -/
  | single (r : SourceRange)
  /-- Two groups, of which the second one is fused to the first. -/
  | both (left right : Fusion)

namespace Fusion

/-- The range that the groups are fused to. -/
def range : Fusion → SourceRange
  | nothing => .unknown
  | single r => r
  | both left right => left.range.fuse right.range

/-- The ranges in the groups, from left to right. -/
def items : Fusion → List SourceRange
  | nothing => []
  | single r => [r]
  | both left right => left.items ++ right.items

/-- Ranges of one file are covered by what they are fused to in any groups. -/
theorem isCover_range {t : Fusion} (h : InOneFile t.items) : IsCover t.items t.range := by
  induction t with
  | nothing => exact isCover_cover []
  | single r => exact isCover_singleton r
  | both left right ihl ihr =>
    have hright : InOneFile right.items := h.of_subset (List.subset_append_right _ _)
    exact (ihl (h.of_subset (List.subset_append_left _ _))).append (ihr hright) hright

end Fusion

/-- What covers values that have ranges is the closed form of their ranges, in any list of them and
in the segments of any qualified name, where a segment more is fused to what covers the others. If
all known ranges are in one file, fusing them in another order and in any groups gives a range that
spans the same characters of that file. -/
theorem cover_closed_form {α : Type*} (rangeOf : α → SourceRange) (values : List α) :
    (∀ r, cover (values.map rangeOf) = r ↔ IsCover (values.map rangeOf) r) ∧
      (∀ p : NamePath, (∀ r, p.range = r ↔ IsCover (p.segments.map Name.range) r) ∧
        p.range = cover (p.segments.map Name.range) ∧
        ∀ x, (p.qualify x).range = p.range.fuse x.range) ∧
      (∀ q : QualifiedName, (∀ r, q.range = r ↔ IsCover (q.segments.map Name.range) r) ∧
        q.range = cover (q.segments.map Name.range) ∧
        ∀ x, (q.qualify x).range = q.range.fuse x.range) ∧
      ∀ t : Fusion, InOneFile t.items → t.items.Perm (values.map rangeOf) →
        (t.range == cover (values.map rangeOf)) = true := by
  refine ⟨fun r => cover_eq_iff, fun p => ⟨fun r => ?_, NamePath.range_eq_cover p, ?_⟩,
    fun q => ⟨fun r => cover_eq_iff, rfl, QualifiedName.range_qualify q⟩, ?_⟩
  · rw [NamePath.range_eq_cover]
    exact cover_eq_iff
  · exact NamePath.range_qualify p
  · intro t hone hperm
    exact (Fusion.isCover_range hone).beq_of_mem_iff (isCover_cover _) (fun a => hperm.mem_iff) hone

-- the range in the other file is passed over, and the file is spelled as at first
example :
    let file := Path.ofText "a.lang".toList
    cover [.unknown, .known file 7 9, .known (Path.ofText "b.lang".toList) 0 40,
      .known (Path.ofText "./a.lang/".toList) 0 1, .known (Path.ofText "a.lang/".toList) 8 3] =
      .known file 7 9 := by
  rfl

end SourceRange

end MixfixNames
