/-
# The Mark in Printed Names

A diagnostic carries the marked name as a text. Reading that text cuts it anew, at every separator
and at every underscore, so whether the mark comes off depends on how it is read. It is read as it
was put on if the first piece of the text is not the wildcard: the holes stay where they are, the
marked token is neither empty nor holds an underscore, and a marked qualifier is not hidden. The
wildcard with its mark, however, is read as the bare mark in front of a hole, and the bare mark is
kept. The main statement, `mark_survives_printing_iff`, says that this is the only exception.
-/
import MixfixNames.CommandLine.Answer
import MixfixNames.Proofs.Mark.Parts
import MixfixNames.Proofs.QualifiedName.Reading
import MixfixNames.Proofs.Ranges.Alike

namespace MixfixNames

namespace Part

/-! ## Marked raw identifiers -/

/-- A raw identifier with the mark in front of its first token. -/
def markRaw (raw : Text) : Text := renderAll (markFirst (ofRaw raw))

/-- Marking brings no other character into a raw identifier. -/
theorem mem_markRaw {raw : Text} {c : Char} (h : c ∈ markRaw raw) :
    c = Token.semicolon ∨ c ∈ raw := by
  rw [← renderAll_ofRaw raw]
  exact mem_renderAll_markFirst h

/-- A marked identifier is read as it was marked, but for the wildcard. -/
theorem ofRaw_markRaw {raw : Text} (h : raw ≠ [underscore]) :
    ofRaw (markRaw raw) = markFirst (ofRaw raw) := by
  have hne : ofRaw raw ≠ [token [underscore]] := fun hraw =>
    h (ofRaw_injective (hraw.trans ofRaw_underscore.symm))
  exact ofRaw_renderAll (isReadable_markFirst (isReadable_ofRaw raw) hne)

/-- A token of a raw identifier is not empty and is made of what the identifier is made of. -/
theorem of_firstText?_ofRaw {raw t : Text} (h : firstText? (ofRaw raw) = some t) :
    t ≠ [] ∧ ∀ c ∈ t, c ∈ raw := by
  have ht : t ∈ texts (ofRaw raw) := List.mem_of_head? h
  refine ⟨?_, ?_⟩
  · rcases isReadable_ofRaw raw with hwild | ⟨htexts, -, -⟩
    · rw [hwild] at ht
      obtain rfl : t = [underscore] := List.mem_singleton.mp ht
      exact List.cons_ne_nil _ _
    · exact (htexts t ht).1
  · intro c hc
    obtain ⟨p, hp, htext⟩ := List.mem_filterMap.mp ht
    rw [← renderAll_ofRaw raw]
    refine List.mem_flatMap.mpr ⟨p, hp, ?_⟩
    cases p with
    | hole => cases htext
    | token u =>
      obtain rfl := Option.some.inj htext
      exact hc

end Part

/-- Marking a raw identifier and then reading it is reading it and then marking the name. -/
theorem Name.ofRaw_markRaw (range : SourceRange) {raw : Text} (h : raw ≠ [underscore]) :
    ofRaw range (Part.markRaw raw) = (ofRaw range raw).mark :=
  congrArg (ofParts range) (Part.ofRaw_markRaw h)

namespace QualifiedName

/-! ## Marked names -/

variable {s p : Text} {ps : List Text}

/-- The outermost segment is read of the first piece. -/
theorem first_parse (range : SourceRange) (h : s.splitOn separator = p :: ps) :
    (parse range s).first = Name.ofRaw range p := by
  have hhead := head?_segments (parse range s)
  rw [segments_parse, h] at hhead
  exact (Option.some.inj hhead).symm

/-- A marked name that was read has the marked first piece in front of the others. -/
theorem segments_mark_parse (range : SourceRange) (h : s.splitOn separator = p :: ps) :
    (parse range s).mark.segments =
      (Name.ofRaw range p).mark :: ps.map (Name.ofRaw range) := by
  rw [segments_mark, first_parse range h, segments_parse, h]
  rfl

/-- The first token of what a text is read as is not empty and is made of what the text is made
of. -/
theorem of_firstText?_parse {range : SourceRange} {t : Text}
    (h : (parse range s).first.firstText? = some t) : t ≠ [] ∧ ∀ c ∈ t, c ∈ s := by
  obtain ⟨p, ps, hs⟩ := List.exists_cons_of_ne_nil (List.splitOn_ne_nil separator s)
  rw [first_parse range hs] at h
  obtain ⟨hne, hmem⟩ := Part.of_firstText?_ofRaw h
  have hp : p ∈ s.splitOn separator := hs ▸ List.mem_cons_self
  refine ⟨hne, fun c hc => ?_⟩
  have hsep : c ≠ separator := by
    rintro rfl
    exact Sequence.not_mem_of_mem_splitOn hp (hmem _ hc)
  exact (Sequence.exists_mem_splitOn_iff hsep).mp ⟨p, hp, hmem c hc⟩

/-- Nothing is taken off a name whose text has no mark in it. -/
theorem unmark_parse (range : SourceRange) (hs : Token.semicolon ∉ s) :
    unmark (parse range s) = parse range s := by
  have laws := TokenBearer.markLaws (parse range s)
  rw [laws.unmark_eq_iff, Bool.eq_false_iff, Ne, laws.isMarked_iff]
  rintro ⟨t, ht, hhead, -⟩
  exact hs ((of_firstText?_parse ht).2 _ (List.mem_of_head? hhead))

/-- The mark comes off a name whose text has no mark in it. -/
theorem unmark_mark_parse (range : SourceRange) (hs : Token.semicolon ∉ s) :
    unmark (parse range s).mark = parse range s := by
  have laws := TokenBearer.markLaws (parse range s)
  cases h : (parse range s).first.firstText? with
  | none =>
    rw [show (parse range s).mark = parse range s from (laws.of_token?_eq_none h).1]
    exact unmark_parse range hs
  | some t =>
    obtain ⟨hne, hmem⟩ := of_firstText?_parse h
    exact unmark_of_strip? (laws.strip?_mark_iff.mpr
      ⟨t, h, hne, fun hhead => hs (hmem _ (List.mem_of_head? hhead))⟩)

/-! ## Printed marked names -/

/-- What is printed of a name whose first piece has a token, with the mark in that piece. -/
theorem render_mark_parse {t : Text} (range : SourceRange) (h : s.splitOn separator = p :: ps)
    (ht : Part.firstText? (Part.ofRaw p) = some t) :
    (parse range s).mark.render = Text.join [separator] (Part.markRaw p :: shownPieces ps) := by
  have hname : (Name.ofRaw range p).mark.isNameless = false := Part.areNamelessParts_markFirst ht
  have hrender : (Name.ofRaw range p).mark.render = Part.markRaw p := rfl
  rw [render, shownSegments_eq, segments_mark_parse range h, shown_cons hname, shown_map_ofRaw,
    List.map_cons, List.map_map, hrender]
  simp [Function.comp_def, Name.render_ofRaw]

/-- The same pieces are read behind a printed first piece, whichever it is. -/
theorem splitOn_join_cons (h : s.splitOn separator = p :: ps) {first : Text}
    (hfirst : separator ∉ first) :
    (Text.join [separator] (first :: shownPieces ps)).splitOn separator =
      first :: shownPieces ps := by
  refine splitOn_join (List.cons_ne_nil _ _) fun piece hm => ?_
  rcases List.mem_cons.mp hm with rfl | hm
  · exact hfirst
  · have hs : piece ∈ s.splitOn separator := by
      rw [h]
      exact List.mem_cons_of_mem p (mem_of_mem_shown hm)
    exact Sequence.not_mem_of_mem_splitOn hs

/-- The marked first piece is still one piece. -/
theorem separator_not_mem_markRaw (h : s.splitOn separator = p :: ps) :
    separator ∉ Part.markRaw p := by
  intro hm
  have hp : p ∈ s.splitOn separator := h ▸ List.mem_cons_self
  rcases Part.mem_markRaw hm with hc | hc
  · exact absurd hc (by decide)
  · exact Sequence.not_mem_of_mem_splitOn hp hc

/-- The marked name is read as what was printed without the mark, marked. -/
theorem parse_render_mark {t : Text} (range range' : SourceRange)
    (h : s.splitOn separator = p :: ps) (ht : Part.firstText? (Part.ofRaw p) = some t)
    (hp : p ≠ [underscore]) :
    parse range' (parse range s).mark.render = (parse range' (parse range s).render).mark := by
  have hnil : p ≠ [] := by
    rintro rfl
    cases ht
  have hsep : separator ∉ p := Sequence.not_mem_of_mem_splitOn (h ▸ List.mem_cons_self)
  have hprinted : (parse range s).render.splitOn separator = p :: shownPieces ps := by
    rw [render_parse, h, shownPieces_cons hnil hp]
    exact splitOn_join_cons h hsep
  apply segments_injective
  rw [segments_mark_parse range' hprinted, segments_parse, render_mark_parse range h ht,
    splitOn_join_cons h (separator_not_mem_markRaw h), List.map_cons, Name.ofRaw_markRaw range' hp]

/-- The mark comes off what is read of a printed name, unless its first piece is the wildcard. -/
theorem unmark_parse_render_mark (range range' : SourceRange) (hs : Token.semicolon ∉ s)
    (hwild : (s.splitOn separator).head? ≠ some [underscore]) :
    unmark (parse range' (parse range s).mark.render) = parse range' (parse range s).render := by
  have hprinted : Token.semicolon ∉ (parse range s).render := fun hm =>
    hs (mem_of_mem_render_parse (by decide) hm)
  obtain ⟨p, ps, h⟩ := List.exists_cons_of_ne_nil (List.splitOn_ne_nil separator s)
  have hp : p ≠ [underscore] := by
    rintro rfl
    exact hwild (by rw [h, List.head?_cons])
  cases ht : Part.firstText? (Part.ofRaw p) with
  | none =>
    -- there is no token, and the name is printed without a mark
    have hfirst : (parse range s).first.firstText? = none := by
      rw [first_parse range h]
      exact ht
    have hmark : (parse range s).mark = parse range s :=
      ((TokenBearer.markLaws (parse range s)).of_token?_eq_none hfirst).1
    rw [hmark, unmark_parse range' hprinted]
  | some t => rw [parse_render_mark range range' h ht hp, unmark_mark_parse range' hprinted]

/-- The wildcard is printed with its mark, which is read as a token of its own and kept. -/
theorem render_mark_of_wildcard (range range' : SourceRange)
    (hwild : (s.splitOn separator).head? = some [underscore]) :
    Token.semicolon ∈ (parse range s).mark.render ∧
      (unmark (parse range' (parse range s).mark.render)).render =
        (parse range s).mark.render := by
  obtain ⟨ps, h⟩ := List.head?_eq_some_iff.mp hwild
  let first : Text := [Token.semicolon, underscore]
  have hprinted : (parse range s).mark.render = Text.join [separator] (first :: shownPieces ps) :=
    render_mark_parse range h rfl
  have hpieces : (parse range s).mark.render.splitOn separator = first :: shownPieces ps := by
    rw [hprinted]
    exact splitOn_join_cons h (by decide)
  generalize (parse range s).mark.render = printed at hprinted hpieces ⊢
  refine ⟨?_, ?_⟩
  · exact (Sequence.exists_mem_splitOn_iff (by decide)).mp
      ⟨first, hpieces ▸ List.mem_cons_self, List.mem_cons_self⟩
  · have hkept : unmark (parse range' printed) = parse range' printed := by
      have laws := TokenBearer.markLaws (parse range' printed)
      rw [laws.unmark_eq_iff, Bool.eq_false_iff, Ne, laws.isMarked_iff]
      rintro ⟨t, ht, -, hbare⟩
      have ht : (parse range' printed).first.firstText? = some t := ht
      rw [first_parse range' hpieces] at ht
      exact hbare (Option.some.inj ht).symm
    rw [hkept, render_parse, hpieces, shownPieces_cons (by decide) (by decide),
      shownPieces_shownPieces, hprinted]

/-! ## The round trip -/

theorem render_unmark_parse_render_mark_iff (range range' : SourceRange)
    (hs : Token.semicolon ∉ s) :
    (unmark (parse range' (parse range s).mark.render)).render = (parse range s).render ↔
      (s.splitOn separator).head? ≠ some [underscore] := by
  constructor
  · intro hsame hwild
    obtain ⟨hmem, hkept⟩ := render_mark_of_wildcard range range' hwild
    rw [← hkept, hsame] at hmem
    exact hs (mem_of_mem_render_parse (by decide) hmem)
  · intro hwild
    rw [unmark_parse_render_mark range range' hs hwild, render_parse_render]

/-- A text without the mark is read, and what is printed of the name with the mark is read again.
Without its mark this prints like the name exactly if the first piece of the text is not the
wildcard; otherwise the marked text is printed once more. So do the answers of the program. -/
theorem mark_survives_printing_iff (range range' : SourceRange) (s : Text)
    (hs : Token.semicolon ∉ s) :
    let q := parse range s
    let again := unmark (parse range' q.mark.render)
    let isWild := (s.splitOn separator).head? = some [underscore]
    (again.render = q.render ↔ ¬ isWild) ∧
      (isWild → again.render = q.mark.render) ∧
      ∀ ext ext' : Text,
        (do CommandLine.answer ⟨ext', .unmarked (← CommandLine.answer ⟨ext, .marked s⟩)⟩) =
          .ok (parse .unknown s).render ↔ ¬ isWild := by
  intro q again isWild
  refine ⟨render_unmark_parse_render_mark_iff range range' hs,
    fun hwild => (render_mark_of_wildcard range range' hwild).2, fun ext ext' => ?_⟩
  show Except.ok _ = Except.ok _ ↔ ¬ isWild
  rw [Except.ok.injEq]
  exact render_unmark_parse_render_mark_iff .unknown .unknown hs

/-- The mark comes off a token behind a hole, with a qualifier that is not printed behind it. -/
theorem mark_survives_printing_behind_hole :
    Token.semicolon ∉ "_+_._.x".toList ∧
      (unmark (parse .unknown (parse .unknown "_+_._.x".toList).mark.render)).render =
        "_+_.x".toList := by
  have hs : Token.semicolon ∉ "_+_._.x".toList := by decide
  have hsame := (mark_survives_printing_iff .unknown .unknown _ hs).1.mpr (by decide)
  exact ⟨hs, hsame.trans (by decide)⟩

/-- The mark of the wildcard does not come off the printed text. -/
theorem printed_wildcard_keeps_mark :
    let q := parse .unknown "_.x".toList
    Token.semicolon ∉ "_.x".toList ∧ q.render = "x".toList ∧ q.mark.render = ";_.x".toList ∧
      (unmark (parse .unknown q.mark.render)).render = ";_.x".toList ∧
      (unmark (parse .unknown q.mark.render)).render ≠ q.render := by
  decide

end QualifiedName

end MixfixNames
