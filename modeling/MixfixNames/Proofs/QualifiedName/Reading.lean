/-
# Reading and Printing Dotted Names

A dotted text is cut at every separator, and each piece is the raw identifier of a segment, so what
is read is told by the pieces alone. What is printed of it again lacks the pieces that are no names,
the empty one and the wildcard, unless they come last. The main statement, `parse_and_render`, says
that nothing else is lost: the printed text is read as the segments that were printed.
-/
import MixfixNames.Proofs.Name.Variations
import MixfixNames.QualifiedName

namespace MixfixNames

namespace QualifiedName

/-! ## What is shown of a list -/

section Shown

variable {α β : Type}

/-- What is shown of a list: the last item, and before it those that are not hidden. -/
def shown (isHidden : α → Bool) (xs : List α) : List α :=
  xs.dropLast.filter (fun a => !isHidden a) ++ xs.getLast?.toList

variable {isHidden : α → Bool} {xs : List α}

/-- The last item is shown, whatever stands before it. -/
theorem shown_concat (init : List α) (last : α) :
    shown isHidden (init ++ [last]) = init.filter (fun a => !isHidden a) ++ [last] := by
  rw [shown, List.dropLast_concat, List.getLast?_concat, Option.toList_some]

/-- An item in front that is not hidden is shown in front. -/
theorem shown_cons {a : α} (h : isHidden a = false) :
    shown isHidden (a :: xs) = a :: shown isHidden xs := by
  cases xs with
  | nil => rfl
  | cons b xs => simp [shown, h]

/-- What is shown of images is the images of what is shown. -/
theorem shown_map (isHidden : β → Bool) (f : α → β) (xs : List α) :
    shown isHidden (xs.map f) = (shown (fun a => isHidden (f a)) xs).map f := by
  rw [shown, shown, List.map_append, ← List.map_dropLast, List.filter_map, List.getLast?_map]
  cases xs.getLast? <;> rfl

theorem shown_ne_nil (h : xs ≠ []) : shown isHidden xs ≠ [] := by
  rw [← List.dropLast_concat_getLast h, shown_concat]
  simp

theorem mem_of_mem_shown {a : α} (h : a ∈ shown isHidden xs) : a ∈ xs := by
  rcases List.mem_append.mp h with h | h
  · exact List.dropLast_subset xs (List.mem_filter.mp h).1
  · exact List.mem_of_getLast? (Option.mem_toList.mp h)

/-- What is shown is shown whole. -/
theorem shown_shown : shown isHidden (shown isHidden xs) = shown isHidden xs := by
  rcases List.eq_nil_or_concat xs with rfl | ⟨init, last, rfl⟩
  · rfl
  · rw [List.concat_eq_append, shown_concat, shown_concat, List.filter_filter]
    simp only [Bool.and_self]

/-- A list is shown whole if nothing before its last item is hidden. -/
theorem shown_eq_self_iff :
    shown isHidden xs = xs ↔ ∀ a ∈ xs.dropLast, isHidden a = false := by
  rcases List.eq_nil_or_concat xs with rfl | ⟨init, last, rfl⟩
  · simp [shown]
  · rw [List.concat_eq_append, shown_concat, List.dropLast_concat, List.append_left_inj,
      List.filter_eq_self]
    simp only [Bool.not_eq_true']

end Shown

theorem shownSegments_eq (q : QualifiedName) :
    q.shownSegments = shown Name.isNameless q.segments := by
  rw [segments, shown_concat, shownSegments]

/-- The pieces of a dotted name that are printed: the last one, and before it those that are neither
empty nor the wildcard. -/
def shownPieces (pieces : List Text) : List Text :=
  shown (fun piece => decide (piece = [] ∨ piece = [underscore])) pieces

/-- A piece in front is printed unless it is empty or the wildcard. -/
theorem shownPieces_cons {piece : Text} (hnil : piece ≠ []) (hwild : piece ≠ [underscore])
    (pieces : List Text) : shownPieces (piece :: pieces) = piece :: shownPieces pieces :=
  shown_cons (decide_eq_false (not_or.mpr ⟨hnil, hwild⟩))

/-- Pieces that are printed are printed whole. -/
theorem shownPieces_shownPieces (pieces : List Text) :
    shownPieces (shownPieces pieces) = shownPieces pieces := shown_shown

/-- Pieces are printed whole if none before the last one is empty or the wildcard. -/
theorem shownPieces_eq_self_iff {pieces : List Text} :
    shownPieces pieces = pieces ↔ [] ∉ pieces.dropLast ∧ [underscore] ∉ pieces.dropLast := by
  rw [shownPieces, shown_eq_self_iff]
  simp only [decide_eq_false_iff_not, not_or]
  constructor
  · intro h
    exact ⟨fun hm => (h _ hm).1 rfl, fun hm => (h _ hm).2 rfl⟩
  · rintro ⟨hnil, hwild⟩ piece hm
    refine ⟨?_, ?_⟩
    · rintro rfl
      exact hnil hm
    · rintro rfl
      exact hwild hm

/-- The segments that are printed are those of the pieces that are printed. -/
theorem shown_map_ofRaw (range : SourceRange) (pieces : List Text) :
    shown Name.isNameless (pieces.map (Name.ofRaw range)) =
      (shownPieces pieces).map (Name.ofRaw range) := by
  rw [shown_map, shownPieces]
  simp only [Name.isNameless_ofRaw]

/-! ## Reading pieces -/

/-- Pieces without separators are read from the text that they are joined to. -/
theorem splitOn_join {pieces : List Text} (hne : pieces ≠ [])
    (h : ∀ piece ∈ pieces, separator ∉ piece) :
    (Text.join [separator] pieces).splitOn separator = pieces :=
  List.splitOn_intercalate separator h hne

/-- What is printed of a text is cut into the pieces that are printed. -/
theorem splitOn_join_shownPieces (s : Text) :
    (Text.join [separator] (shownPieces (s.splitOn separator))).splitOn separator =
      shownPieces (s.splitOn separator) :=
  splitOn_join (shown_ne_nil (List.splitOn_ne_nil separator s)) fun _ hm =>
    Sequence.not_mem_of_mem_splitOn (mem_of_mem_shown hm)

/-- The segments of a text are printed as its pieces. -/
theorem map_render_segments_parse (range : SourceRange) (s : Text) :
    (parse range s).segments.map Name.render = s.splitOn separator := by
  simp [segments_parse, Function.comp_def, Name.render_ofRaw]

/-- All segments of a text are at the range that it was read at. -/
theorem map_range_segments_parse (range : SourceRange) (s : Text) :
    (parse range s).segments.map Name.range =
      List.replicate (s.count separator + 1) range := by
  have hrange : Name.range ∘ Name.ofRaw range = fun _ => range := rfl
  rw [segments_parse, List.map_map, hrange, List.map_const', Sequence.length_splitOn]

/-- The printed text is the printed pieces, joined by the separator. -/
theorem render_parse (range : SourceRange) (s : Text) :
    (parse range s).render = Text.join [separator] (shownPieces (s.splitOn separator)) := by
  rw [render, shownSegments_eq, segments_parse, shown_map_ofRaw, List.map_map]
  simp [Function.comp_def, Name.render_ofRaw]

/-- What was printed is read as the segments that were printed. -/
theorem segments_parse_render (range range' : SourceRange) (s : Text) :
    (parse range' (parse range s).render).segments =
      (shownPieces (s.splitOn separator)).map (Name.ofRaw range') := by
  rw [render_parse, segments_parse, splitOn_join_shownPieces]

/-- Reading and printing once more changes nothing. -/
theorem render_parse_render (range range' : SourceRange) (s : Text) :
    (parse range' (parse range s).render).render = (parse range s).render := by
  rw [render_parse range', render_parse range, splitOn_join_shownPieces, shownPieces_shownPieces]

/-- Nothing is printed that was not read. -/
theorem mem_of_mem_render_parse {range : SourceRange} {s : Text} {c : Char} (hc : c ≠ separator)
    (h : c ∈ (parse range s).render) : c ∈ s := by
  rw [render_parse] at h
  obtain ⟨piece, hm, hpiece⟩ := (Sequence.exists_mem_splitOn_iff hc).mpr h
  rw [splitOn_join_shownPieces] at hm
  exact (Sequence.exists_mem_splitOn_iff hc).mp ⟨piece, mem_of_mem_shown hm, hpiece⟩

/-- A text is printed as itself exactly if none of its pieces is left out. -/
theorem render_parse_eq_self_iff {range : SourceRange} {s : Text} :
    (parse range s).render = s ↔
      [] ∉ (s.splitOn separator).dropLast ∧ [underscore] ∉ (s.splitOn separator).dropLast := by
  rw [← shownPieces_eq_self_iff, render_parse]
  constructor
  · intro h
    rw [← splitOn_join_shownPieces, h]
  · intro h
    rw [h, Text.join, List.intercalate_splitOn]

/-! ## Reading and printing -/

/-- A dotted text is read as one segment for each of its pieces, all of them at the range of the
text. What is printed is the text without the qualifiers that are no names, and it is read as the
segments that are left, so printing a second time changes nothing, and printing for the first time
changes nothing exactly if there are no such qualifiers. -/
theorem parse_and_render (range : SourceRange) (s : Text) :
    let q := parse range s
    let pieces := s.splitOn separator
    let left := shown Name.isNameless q.segments
    q.segments.length = s.count separator + 1 ∧
      q.segments.map Name.render = pieces ∧
      q.segments.map Name.range = List.replicate (s.count separator + 1) range ∧
      q.range = range ∧
      q.render = Text.join [separator] (shownPieces pieces) ∧
      (parse range q.render).segments = left ∧
      (∀ range', (parse range' q.render).segments = left.map (Name.atRange · range') ∧
        (parse range' q.render).render = q.render) ∧
      (q.render = s ↔ [] ∉ pieces.dropLast ∧ [underscore] ∉ pieces.dropLast) := by
  intro q pieces left
  have hleft : left = (shownPieces pieces).map (Name.ofRaw range) := by
    rw [← shown_map_ofRaw, ← segments_parse]
  refine ⟨?_, map_render_segments_parse range s, map_range_segments_parse range s,
    range_parse range s, render_parse range s, ?_, fun range' => ⟨?_, ?_⟩,
    render_parse_eq_self_iff⟩
  · rw [segments_parse, List.length_map, Sequence.length_splitOn]
  · rw [hleft, segments_parse_render]
  · rw [hleft, segments_parse_render, List.map_map]
    rfl
  · exact render_parse_render range range' s

example : (parse .unknown "_.A..b._".toList).render = "A.b._".toList := by decide

end QualifiedName

end MixfixNames
