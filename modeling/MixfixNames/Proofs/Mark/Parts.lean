/-
# Marked Parts

What a mark on the first token does to a sequence of parts as a whole: the holes stay where they
are, no other character than the mark comes in, parts with a token do not stand for the wildcard
once it is marked, and what a raw identifier can denote, it can denote with the mark.
-/
import MixfixNames.Proofs.Mark.Laws
import MixfixNames.Proofs.Name.RawParts

namespace MixfixNames

/-- A marked token starts with the mark. -/
theorem Token.head?_mark (t : Text) : (mark t).head? = some semicolon := by
  by_cases h : t.head? = some semicolon
  · rw [mark_of_head?_eq h, h]
  · rw [mark_of_head?_ne h, List.head?_cons]

/-- Marking brings no other character into a token. -/
theorem Token.mem_mark {t : Text} {c : Char} (h : c ∈ mark t) : c = semicolon ∨ c ∈ t := by
  rw [mark] at h
  split at h
  · exact .inr h
  · exact List.mem_cons.mp h

namespace Part

variable {ps : List Part}

/-- A hole in front is passed over when the first token is marked. -/
theorem markFirst_hole (ps : List Part) : markFirst (hole :: ps) = hole :: markFirst ps := by
  rw [markFirst, editFirst?_hole, markFirst]
  cases editFirst? (fun t => some (Token.mark t)) ps <;> rfl

/-- Marking keeps the holes where they are. -/
theorem map_isHole_markFirst (ps : List Part) : (markFirst ps).map isHole = ps.map isHole := by
  rw [markFirst]
  cases h : editFirst? (fun t => some (Token.mark t)) ps with
  | none => rfl
  | some qs => exact map_isHole_editFirst? h

/-- A text of marked parts was there before, or is one with the mark. -/
theorem mem_texts_markFirst {u : Text} (h : u ∈ texts (markFirst ps)) :
    u ∈ texts ps ∨ ∃ t ∈ texts ps, u = Token.mark t := by
  induction ps with
  | nil => exact .inl h
  | cons p ps ih =>
    cases p with
    | hole =>
      rw [markFirst_hole] at h
      exact ih h
    | token t =>
      rcases List.mem_cons.mp h with rfl | h
      · exact .inr ⟨t, List.mem_cons_self, rfl⟩
      · exact .inl (List.mem_cons_of_mem t h)

theorem mem_renderAll_markFirst {c : Char} (h : c ∈ renderAll (markFirst ps)) :
    c = Token.semicolon ∨ c ∈ renderAll ps := by
  induction ps with
  | nil => exact .inr h
  | cons p ps ih =>
    cases p with
    | hole =>
      rw [markFirst_hole] at h
      rcases List.mem_cons.mp h with rfl | h
      · exact .inr List.mem_cons_self
      · exact (ih h).imp_right (List.mem_cons_of_mem underscore)
    | token t =>
      rcases List.mem_append.mp h with h | h
      · exact (Token.mem_mark h).imp_right (List.mem_append_left (renderAll ps))
      · exact .inr (List.mem_append_right t h)

/-- Marked parts do not stand for the wildcard if there is a token that bears the mark. -/
theorem areNamelessParts_markFirst {t : Text} (h : firstText? ps = some t) :
    Name.areNamelessParts (markFirst ps) = false := by
  have htext : firstText? (markFirst ps) = some (Token.mark t) :=
    (TokenBearer.token?_mark ps).trans (congrArg (Option.map Token.mark) h)
  rw [Bool.eq_false_iff]
  intro hnameless
  rcases Name.areNamelessParts_iff.mp hnameless with hps | hps | hps
  · rw [hps] at htext
    cases htext
  · rw [hps] at htext
    cases htext
  · rw [hps] at htext
    have hhead := Token.head?_mark t
    rw [← Option.some.inj htext] at hhead
    cases hhead

/-- The mark leaves parts readable, but for the wildcard token. -/
theorem isReadable_markFirst (h : IsReadable ps) (hne : ps ≠ [token [underscore]]) :
    IsReadable (markFirst ps) := by
  obtain ⟨htexts, hchain, hhole⟩ := h.resolve_left hne
  refine .inr ⟨?_, ?_, ?_⟩
  · intro u hu
    rcases mem_texts_markFirst hu with hu | ⟨t, ht, rfl⟩
    · exact htexts u hu
    · refine ⟨?_, ?_⟩
      · intro hnil
        have hhead := Token.head?_mark t
        rw [hnil] at hhead
        cases hhead
      · intro hc
        rcases Token.mem_mark hc with hc | hc
        · exact absurd hc (by decide)
        · exact (htexts t ht).2 hc
  · rw [isChain_separated_iff, map_isHole_markFirst, ← isChain_separated_iff]
    exact hchain
  · intro hmark
    have hmap := map_isHole_markFirst ps
    rw [hmark] at hmap
    -- a sequence with the holes of the lone hole is the lone hole
    obtain ⟨p, rest, rfl, hp, hrest⟩ := List.map_eq_cons_iff.mp hmap.symm
    obtain rfl := List.map_eq_nil_iff.mp hrest
    cases p with
    | hole => exact hhole rfl
    | token t => cases hp

end Part

end MixfixNames
