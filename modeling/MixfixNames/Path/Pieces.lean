/-
# Joining Paths and Going Up

A path as seen from another one, and the path above another one. The parent of a path is its text up
to the end of the component before the last; the root and a path without components have none. Going
up several levels stops at the first path without a parent.

Both are found through the pieces of paths. The main statements are
`components_ofPieces_of_isPrefix`, which says what the components of a path are that is made of the
first pieces of another one, and `components_join`: a relative path adds its components to those of
a path that is not empty.
-/
import MixfixNames.Path.Basic

namespace MixfixNames.Path

/-! ## Paths made of pieces -/

/-- Pieces behind the first ones are read as such. -/
theorem annotate_append {xs : List (List UInt8)} (h : xs ≠ []) (ys : List (List UInt8)) :
    annotate (xs ++ ys) = annotate xs ++ ys.map fun b => ⟨b, Component.ofPiece? b⟩ := by
  cases xs with
  | nil => exact absurd rfl h
  | cons first rest => simp [annotate]

/-- Reading pieces keeps their octets. -/
theorem map_bytes_annotate (xs : List (List UInt8)) : (annotate xs).map Piece.bytes = xs := by
  cases xs with
  | nil => rfl
  | cons first rest => simp [annotate, Function.comp_def]

/-- What a piece denotes does not depend on the pieces behind it. -/
theorem annotate_take (xs : List (List UInt8)) (n : Nat) :
    annotate (xs.take n) = (annotate xs).take n := by
  cases xs with
  | nil => simp [annotate]
  | cons first rest =>
    cases n with
    | zero => rfl
    | succ n => simp [annotate, List.map_take]

/-- A path made of pieces has the components that they denote. -/
theorem components_ofPieces {xs : List (List UInt8)} (h : ∀ b ∈ xs, slash ∉ b) :
    (ofPieces (annotate xs)).components = (annotate xs).filterMap Piece.component := by
  by_cases hr : xs = [[]]
  · subst hr
    rfl
  · by_cases hn : xs = []
    · subst hn
      rfl
    · have ho : ofPieces (annotate xs) = ⟨[slash].intercalate xs⟩ := by
        unfold ofPieces
        split
        · next ha =>
          have hm := map_bytes_annotate xs
          rw [ha] at hm
          exact absurd hm.symm hr
        · rw [map_bytes_annotate]
      have hs : ([slash].intercalate xs).splitOn slash = xs := List.splitOn_intercalate slash h hn
      have hb : [slash].intercalate xs ≠ [] := by
        intro he
        rw [he] at hs
        exact hr hs.symm
      rw [ho, components, pieces, if_neg hb, hs]

/-- A path made of the first pieces of a path has the components that they denote. -/
theorem components_ofPieces_of_isPrefix {p : Path} {ps : List Piece} (h : ps <+: p.pieces) :
    (ofPieces ps).components = ps.filterMap Piece.component := by
  rw [List.prefix_iff_eq_take.mp h]
  unfold pieces
  split
  · rw [List.take_nil]
    rfl
  · rw [← annotate_take]
    exact components_ofPieces fun b hb =>
      Sequence.not_mem_of_mem_splitOn (List.mem_of_mem_take hb)

/-- Behind the first piece there is no root. -/
theorem component_ne_root_of_mem_tail {p : Path} {piece : Piece} (h : piece ∈ p.pieces.tail) :
    piece.component ≠ some .root := by
  unfold pieces at h
  split at h
  · simp at h
  · cases hs : p.bytes.splitOn slash with
    | nil => exact absurd hs (List.splitOn_ne_nil slash p.bytes)
    | cons first rest =>
      rw [hs, annotate, List.tail_cons, List.mem_map] at h
      obtain ⟨b, -, rfl⟩ := h
      exact Component.ofPiece?_ne_root b

/-! ## Joining -/

/-- The path `q` as seen from `p`. An absolute path replaces `p`; otherwise the two are put
together with a separator, unless `p` is empty or already ends in one. -/
def join (p q : Path) : Path :=
  if q.isAbsolute then q
  else if p.bytes = [] ∨ p.bytes.getLast? = some slash then ⟨p.bytes ++ q.bytes⟩
  else ⟨p.bytes ++ slash :: q.bytes⟩

/-- An absolute path is the same from everywhere. -/
theorem join_of_isAbsolute {p q : Path} (h : q.isAbsolute = true) : p.join q = q := by
  simp [join, h]

/-- The components of a text that stands behind a separator. -/
def componentsBehind (bytes : List UInt8) : List Component :=
  (bytes.splitOn slash).filterMap Component.ofPiece?

/-- The components of a path that goes on behind a separator. -/
theorem components_append_slash (b bytes : List UInt8) :
    components ⟨b ++ slash :: bytes⟩ = components ⟨b ++ [slash]⟩ ++ componentsBehind bytes := by
  have hne : (b.splitOn slash) ≠ [] := List.splitOn_ne_nil slash b
  rw [components, components, pieces, pieces, if_neg (by simp), if_neg (by simp)]
  have he : Component.ofPiece? [] = none := rfl
  simp only [List.splitOn_append_cons_self, annotate_append hne, componentsBehind,
    List.filterMap_append, List.filterMap_map, List.splitOn_nil, Function.comp_def,
    List.filterMap_cons, List.filterMap_nil, he, List.append_nil]

/-- A separator at the end of a path that is not empty says nothing. -/
theorem components_concat_slash {b : List UInt8} (h : b ≠ []) :
    components ⟨b ++ [slash]⟩ = components ⟨b⟩ := by
  have hne : (b.splitOn slash) ≠ [] := List.splitOn_ne_nil slash b
  rw [components, components, pieces, pieces, if_neg (by simp), if_neg h]
  simp only [List.splitOn_append_cons_self, annotate_append hne]
  simp [Component.ofPiece?]

/-- A relative path joined to one that is not empty adds its components. -/
theorem components_join {p q : Path} (hp : p.bytes ≠ []) (hq : q.isAbsolute = false) :
    (p.join q).components = p.components ++ componentsBehind q.bytes := by
  obtain ⟨b⟩ := p
  obtain ⟨bytes⟩ := q
  simp only at hp
  by_cases hl : b.getLast? = some slash
  · obtain ⟨init, rfl⟩ := List.getLast?_eq_some_iff.mp hl
    simp only [join, hq, hl, or_true, if_true, if_false, Bool.false_eq_true]
    rw [List.append_assoc, List.singleton_append, components_append_slash]
  · simp only [join, hq, hl, hp, or_self, if_false, Bool.false_eq_true]
    rw [components_append_slash, components_concat_slash hp]

/-! ## Going up -/

/-- The pieces up to the last one that denotes something. -/
def trimmed (ps : List Piece) : List Piece := Sequence.beforeTrailing Piece.isSilent ps

/-- The path without its last component, spelled as in the path itself. -/
def parent? (p : Path) : Option Path :=
  let kept := trimmed p.pieces
  match kept.getLast? with
  | none => none
  | some last =>
    if last.component = some .root then none else some (ofPieces (trimmed kept.dropLast))

/-- The path `n` levels up, or the highest one below that. -/
def ascend : Nat → Path → Path
  | 0, p => p
  | n + 1, p =>
    match p.parent? with
    | none => p
    | some q => ascend n q

/-- Going up no level stays at the path. -/
@[simp] theorem ascend_zero (p : Path) : ascend 0 p = p := rfl

/-- Without a parent every ascent stays at the path. -/
theorem ascend_of_parent?_eq_none {p : Path} (h : p.parent? = none) (n : Nat) :
    ascend n p = p := by
  cases n with
  | zero => rfl
  | succ n => simp [ascend, h]

/-- With a parent the first level leads to it. -/
theorem ascend_succ_of_parent? {p q : Path} (h : p.parent? = some q) (n : Nat) :
    ascend (n + 1) p = ascend n q := by
  simp [ascend, h]

end MixfixNames.Path
