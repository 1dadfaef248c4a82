/-
# How Far a Path Goes Up

Going up takes components off the end of a path and nothing else. The main statement,
`components_ascend`, says how many: one for each level, as long as there is a component other
than the root. So a path that was joined to a directory leads back to the directory, and a path that
starts at the top leads to the top at most.
-/
import Mathlib.Data.List.DropRight
import MixfixNames.Proofs.Path.Entries

namespace MixfixNames.Path

/-! ## Trimmed pieces -/

/-- The trimmed pieces are what stands before the silent ones at the end. -/
theorem trimmed_eq_rdropWhile (ps : List Piece) : trimmed ps = ps.rdropWhile Piece.isSilent := rfl

/-- The trimmed pieces are the first pieces. -/
theorem trimmed_isPrefix (ps : List Piece) : trimmed ps <+: ps :=
  List.rdropWhile_prefix Piece.isSilent ps

/-- Cutting silent pieces off loses no component. -/
theorem filterMap_trimmed (ps : List Piece) :
    (trimmed ps).filterMap Piece.component = ps.filterMap Piece.component := by
  have hsilent : (ps.rtakeWhile Piece.isSilent).filterMap Piece.component = [] := by
    rw [List.filterMap_eq_nil_iff]
    intro piece hm
    simpa [Piece.isSilent] using List.mem_rtakeWhile_imp hm
  conv_rhs => rw [← List.rdropWhile_append_rtakeWhile (p := Piece.isSilent) (l := ps),
    List.filterMap_append, hsilent, List.append_nil, ← trimmed_eq_rdropWhile]

/-! ## The parent -/

/-- The last of the trimmed pieces denotes the last component. -/
theorem components_of_trimmed {p : Path} {init : List Piece} {last : Piece}
    (h : trimmed p.pieces = init ++ [last]) :
    ∃ c, last.component = some c ∧ p.components = init.filterMap Piece.component ++ [c] := by
  have hne : trimmed p.pieces ≠ [] := by simp [h]
  have hs : last.isSilent = false := by
    have hlast := List.rdropWhile_last_not Piece.isSilent p.pieces hne
    simpa only [← trimmed_eq_rdropWhile, h, List.getLast_concat, Bool.not_eq_true] using hlast
  cases hc : last.component with
  | none => simp [Piece.isSilent, hc] at hs
  | some c =>
    refine ⟨c, rfl, ?_⟩
    rw [components, ← filterMap_trimmed, h, List.filterMap_append]
    simp [hc]

/-- The parent of a path lacks its last component. -/
theorem components_of_parent? {p q : Path} (h : p.parent? = some q) :
    q.components = p.components.dropLast := by
  unfold parent? at h
  simp only at h
  split at h
  · cases h
  · next last hl =>
    split at h
    · cases h
    · obtain ⟨init, hk⟩ := List.getLast?_eq_some_iff.mp hl
      obtain ⟨c, -, hc⟩ := components_of_trimmed hk
      have hp : init <+: p.pieces :=
        (hk ▸ List.prefix_append init [last]).trans (trimmed_isPrefix p.pieces)
      rw [hk, List.dropLast_concat, Option.some.injEq] at h
      rw [← h, components_ofPieces_of_isPrefix ((trimmed_isPrefix init).trans hp),
        filterMap_trimmed, hc, List.dropLast_concat]

/-- Only the root and a path without components have no parent. -/
theorem parent?_eq_none_iff {p : Path} :
    p.parent? = none ↔ p.components = [] ∨ p.components = [.root] := by
  unfold parent?
  simp only
  split
  · next hl =>
    rw [List.getLast?_eq_none_iff] at hl
    have hc : p.components = [] := by
      rw [components, ← filterMap_trimmed, hl]
      rfl
    simp [hc]
  · next last hl =>
    obtain ⟨init, hk⟩ := List.getLast?_eq_some_iff.mp hl
    obtain ⟨c, hlast, hc⟩ := components_of_trimmed hk
    by_cases hr : c = .root
    · have hi : init = [] := by
        cases init with
        | nil => rfl
        | cons first rest =>
          have hp : first :: (rest ++ [last]) <+: p.pieces := by
            rw [← List.cons_append, ← hk]
            exact trimmed_isPrefix p.pieces
          obtain ⟨more, hm⟩ := hp
          have : last ∈ p.pieces.tail := by simp [← hm]
          exact absurd (hr ▸ hlast) (component_ne_root_of_mem_tail this)
      simp [hlast, hr, hc, hi]
    · have hne : init.filterMap Piece.component ++ [c] ≠ [.root] := by
        intro he
        have := congrArg List.getLast? he
        rw [List.getLast?_concat] at this
        exact hr (Option.some.inj this)
      simp [hlast, hr, hc, hne]

/-! ## How far a path goes up -/

/-- The number of components of a path without the root. -/
def depth (p : Path) : ℕ := p.components.countP (· ≠ .root)

/-- The root stands at the start of a path only. -/
theorem root_notMem_tail (p : Path) : Component.root ∉ p.components.tail := by
  intro h
  unfold components at h
  cases hp : p.pieces with
  | nil => simp [hp] at h
  | cons first rest =>
    have htail : ∀ c ∈ (p.pieces.filterMap Piece.component).tail,
        c ∈ rest.filterMap Piece.component := by
      intro c hc
      rw [hp, List.filterMap_cons] at hc
      split at hc
      · exact List.mem_of_mem_tail hc
      · exact hc
    obtain ⟨piece, hm, hc⟩ := List.mem_filterMap.mp (htail _ h)
    exact component_ne_root_of_mem_tail (by rwa [hp, List.tail_cons]) hc

/-- The last component of a path that has a parent is not the root. -/
theorem exists_components_eq_concat {p q : Path} (h : p.parent? = some q) :
    ∃ c, c ≠ .root ∧ p.components = q.components ++ [c] := by
  have hnone : ¬(p.components = [] ∨ p.components = [.root]) := by
    rw [← parent?_eq_none_iff, h]
    exact Option.some_ne_none q
  rw [not_or] at hnone
  obtain ⟨init, c, hic⟩ : ∃ init c, p.components = init ++ [c] :=
    ⟨_, _, (List.dropLast_concat_getLast hnone.1).symm⟩
  refine ⟨c, ?_, ?_⟩
  · rintro rfl
    cases init with
    | nil => exact hnone.2 hic
    | cons first rest =>
      have htail := root_notMem_tail p
      rw [hic, List.cons_append, List.tail_cons] at htail
      exact htail (List.mem_append_right _ (List.mem_singleton_self _))
  · rw [components_of_parent? h, hic, List.dropLast_concat]

/-- A path without a parent has no component but the root. -/
theorem depth_of_parent?_eq_none {p : Path} (h : p.parent? = none) : p.depth = 0 := by
  unfold depth
  rcases parent?_eq_none_iff.mp h with hc | hc
  · rw [hc]
    rfl
  · rw [hc]
    rfl

/-- Going up `n` levels takes the last `n` components other than the root off, or all of them. -/
theorem components_ascend (n : ℕ) (p : Path) :
    (p.ascend n).components = p.components.rdrop (min n p.depth) := by
  induction n generalizing p with
  | zero => rw [ascend_zero, Nat.zero_min, List.rdrop_zero]
  | succ n ih =>
    cases hp : p.parent? with
    | none =>
      rw [ascend_of_parent?_eq_none hp, depth_of_parent?_eq_none hp, Nat.min_zero, List.rdrop_zero]
    | some q =>
      -- one level takes one component off, and the depth goes down with it
      obtain ⟨c, hc, hcomp⟩ := exists_components_eq_concat hp
      have hdepth : p.depth = q.depth + 1 := by
        rw [depth, depth, hcomp, List.countP_append, List.countP_singleton]
        simp [hc]
      rw [ascend_succ_of_parent? hp, ih, hcomp, hdepth, Nat.add_min_add_right,
        List.rdrop_concat_succ]

/-- Going up by as many levels as entries stand at the end of a path leads to where they start. -/
theorem components_ascend_length {p : Path} {cs entries : List Component}
    (h : p.components = cs ++ entries) (hr : Component.root ∉ entries) :
    (p.ascend entries.length).components = cs := by
  have hdepth : entries.length ≤ p.depth := by
    have hall : entries.countP (· ≠ .root) = entries.length := by
      rw [List.countP_eq_length]
      intro c hc
      exact decide_eq_true fun he => hr (he ▸ hc)
    rw [depth, h, List.countP_append, hall]
    exact Nat.le_add_left _ _
  rw [components_ascend, Nat.min_eq_left hdepth, h, List.rdrop, List.length_append,
    Nat.add_sub_cancel, List.take_left]

/-! ## The top -/

/-- A path starts at the top exactly if it goes through the root. -/
theorem isAbsolute_iff_root_mem {p : Path} :
    p.isAbsolute = true ↔ Component.root ∈ p.components := by
  constructor
  · intro h
    exact List.mem_of_head? (components_head_of_isAbsolute h)
  · intro h
    obtain ⟨piece, hpiece, hroot⟩ := List.mem_filterMap.mp h
    unfold pieces at hpiece
    split at hpiece
    · cases hpiece
    · next hne =>
      obtain ⟨first, rest, hs⟩ := List.exists_cons_of_ne_nil (List.splitOn_ne_nil slash p.bytes)
      rw [hs, annotate, List.mem_cons, List.mem_map] at hpiece
      rcases hpiece with rfl | ⟨b, -, rfl⟩
      · have hfirst : first = [] := Component.ofFirstPiece?_eq_root_iff.mp hroot
        have hhead := Sequence.head?_splitOn_eq_nil_iff slash p.bytes
        rw [hs, List.head?_cons, hfirst, or_iff_right hne] at hhead
        exact beq_iff_eq.mpr (hhead.mp rfl)
      · exact absurd hroot (Component.ofPiece?_ne_root b)

/-- However many levels it is, going up neither leads beyond the top nor to it from elsewhere. -/
theorem isAbsolute_ascend (n : ℕ) (p : Path) : (p.ascend n).isAbsolute = p.isAbsolute := by
  rw [Bool.eq_iff_iff, isAbsolute_iff_root_mem, isAbsolute_iff_root_mem, components_ascend]
  constructor
  · exact fun h => List.mem_of_mem_take h
  · intro h
    -- the root comes first and is not counted, so it is never taken off
    obtain ⟨rest, hp⟩ :=
      List.head?_eq_some_iff.mp (components_head_of_isAbsolute (isAbsolute_iff_root_mem.mpr h))
    have hdepth : p.depth ≤ rest.length := by
      rw [depth, hp, List.countP_cons_of_neg (by simp)]
      exact List.countP_le_length
    have hkept : (Component.root :: rest).length - min n p.depth =
        rest.length - min n p.depth + 1 := by
      rw [List.length_cons]
      omega
    rw [hp, List.rdrop, hkept, List.take_succ_cons]
    exact List.mem_cons_self

end MixfixNames.Path
