/-
# Editing One Token

Two edits of a sequence of parts: of its first token, behind any leading holes, and of its last
token, before any trailing holes. Both keep the number of parts and every hole where it is.
-/
import MixfixNames.Name.Part

namespace MixfixNames.Part

/-! ## The first token -/

/-- The parts with their first token edited; nothing if there is no token or it cannot be
edited. -/
def editFirst? (edit : Text → Option Text) : List Part → Option (List Part)
  | [] => none
  | hole :: ps => (editFirst? edit ps).map (hole :: ·)
  | token t :: ps => (edit t).map (token · :: ps)

/-- Holes in front are passed over. -/
theorem editFirst?_hole (edit : Text → Option Text) (ps : List Part) :
    editFirst? edit (hole :: ps) = (editFirst? edit ps).map (hole :: ·) := rfl

/-- A token in front is the one that is edited. -/
theorem editFirst?_token (edit : Text → Option Text) (t : Text) (ps : List Part) :
    editFirst? edit (token t :: ps) = (edit t).map (token · :: ps) := rfl

/-- An edit of the first token leaves the holes where they are. -/
theorem map_isHole_editFirst? {edit : Text → Option Text} {ps qs : List Part}
    (h : editFirst? edit ps = some qs) : qs.map isHole = ps.map isHole := by
  induction ps generalizing qs with
  | nil => simp [editFirst?] at h
  | cons p ps ih =>
    cases p with
    | hole =>
      obtain ⟨rs, hr, rfl⟩ := Option.map_eq_some_iff.mp h
      simp [ih hr]
    | token t =>
      obtain ⟨u, -, rfl⟩ := Option.map_eq_some_iff.mp h
      rfl

/-! ## The last token -/

/-- The parts with their last token edited; nothing if there is no token. -/
def editLast? (edit : Text → Text) : List Part → Option (List Part)
  | [] => none
  | p :: ps =>
    match editLast? edit ps with
    | some qs => some (p :: qs)
    | none =>
      match p with
      | hole => none
      | token t => some (token (edit t) :: ps)

/-- Without a token behind it, a token is the last one. -/
theorem editLast?_token_of_eq_none {edit : Text → Text} {ps : List Part}
    (h : editLast? edit ps = none) (t : Text) :
    editLast? edit (token t :: ps) = some (token (edit t) :: ps) := by
  simp [editLast?, h]

/-- A part in front of the last token is kept. -/
theorem editLast?_cons_of_eq_some {edit : Text → Text} {ps qs : List Part}
    (h : editLast? edit ps = some qs) (p : Part) :
    editLast? edit (p :: ps) = some (p :: qs) := by
  simp [editLast?, h]

/-- An edit of the last token leaves the holes where they are. -/
theorem map_isHole_editLast? {edit : Text → Text} {ps qs : List Part}
    (h : editLast? edit ps = some qs) : qs.map isHole = ps.map isHole := by
  induction ps generalizing qs with
  | nil => simp [editLast?] at h
  | cons p ps ih =>
    cases hs : editLast? edit ps with
    | some rs =>
      rw [editLast?_cons_of_eq_some hs, Option.some.injEq] at h
      rw [← h, List.map_cons, List.map_cons, ih hs]
    | none =>
      cases p with
      | hole => simp [editLast?, hs] at h
      | token t =>
        rw [editLast?_token_of_eq_none hs, Option.some.injEq] at h
        rw [← h]
        rfl

/-- There is no last token exactly where every part is a hole. -/
theorem editLast?_eq_none_iff {edit : Text → Text} {ps : List Part} :
    editLast? edit ps = none ↔ texts ps = [] := by
  induction ps with
  | nil => simp [editLast?, texts]
  | cons p ps ih =>
    cases hs : editLast? edit ps with
    | some rs =>
      have : texts ps ≠ [] := fun h => by
        rw [ih.mpr h] at hs
        cases hs
      rw [editLast?_cons_of_eq_some hs]
      cases p <;> simp_all [texts, List.filterMap_cons, text?]
    | none =>
      have := ih.mp hs
      cases p <;> simp_all [editLast?, texts, List.filterMap_cons, text?]

end MixfixNames.Part
