/-
# The Mark and Other Operations

A mark stands at the front of a name and a counter at its end, so it does not matter which of them
is put on first, even if the name has one token only: a character that does not count may stand in
front of a token without changing how its end is read. Likewise it does not matter whether a
qualified name is marked before or after it gets one more segment, as the segment comes in at the
other end. The main statement is `mark_commutes`.
-/
import MixfixNames.Proofs.Mark.Parts
import MixfixNames.Proofs.Name.OneToken
import MixfixNames.Proofs.QualifiedName.Segments
import MixfixNames.Proofs.Token.Root

namespace MixfixNames

/-! ## Marked tokens -/

namespace Token

open Sequence Counter

/-- A character that does not count goes to the root of the token behind it. -/
theorem split_cons {c : Char} (hc : isCounting c = false) (s : Text) :
    split (c :: s) = (c :: (split s).1, (split s).2) := by
  obtain ⟨⟨hprime, hdigit⟩, hsubscript⟩ : (isPrime c = false ∧ c.isDigit = false) ∧
      isSubscript c = false := by simpa [isCounting] using hc
  simp only [split_eq, rtakeWhile_cons_of_neg hprime, rtakeWhile_cons_of_neg hdigit,
    rtakeWhile_cons_of_neg hsubscript, rdropWhile_cons_of_neg hprime,
    rdropWhile_cons_of_neg hdigit, rdropWhile_cons_of_neg hsubscript]
  split_ifs <;> rfl

/-- Varying leaves a character that does not count in front. -/
theorem next_cons {c : Char} (hc : isCounting c = false) (s : Text) :
    next (c :: s) = c :: next s := by
  simp only [next, root, split_cons hc]
  cases (split s).2.bind Counter.next? <;> rfl

/-- Varying brings no character that does not count to the front. -/
theorem head?_of_head?_next {c : Char} (hc : isCounting c = false) {s : Text}
    (h : (next s).head? = some c) : s.head? = some c := by
  obtain ⟨r, counter, ⟨rest, rfl⟩, hn, hne, hcounter⟩ := exists_next_eq_append s
  rw [hn] at h
  cases r with
  | nil =>
    -- a variation without a root is nothing but a counter
    rw [hcounter c (List.mem_of_head? h)] at hc
    cases hc
  | cons d r => exact h

theorem isCounting_semicolon : isCounting semicolon = false := by decide

/-- A token is marked and varied in either order. -/
theorem next_mark (t : Text) : next (mark t) = mark (next t) := by
  by_cases h : t.head? = some semicolon
  · obtain ⟨s, rfl⟩ := List.head?_eq_some_iff.mp h
    rw [mark_of_head?_eq h, next_cons isCounting_semicolon,
      mark_of_head?_eq (List.head?_cons ..)]
  · have hnext : (next t).head? ≠ some semicolon := fun hnext =>
      h (head?_of_head?_next isCounting_semicolon hnext)
    rw [mark_of_head?_ne h, mark_of_head?_ne hnext, next_cons isCounting_semicolon]

end Token

/-! ## Marked parts -/

namespace Part

/-- A hole in front is passed over when the last token is edited. -/
theorem editLast?_hole (edit : Text → Text) (ps : List Part) :
    editLast? edit (hole :: ps) = (editLast? edit ps).map (hole :: ·) := by
  cases h : editLast? edit ps with
  | none => simp [editLast?, h]
  | some qs => exact editLast?_cons_of_eq_some h hole

theorem markFirst_token (t : Text) (ps : List Part) :
    markFirst (token t :: ps) = token (Token.mark t) :: ps := rfl

/-- The first token is marked and the last one varied in either order, even if they are the same. -/
theorem editLast?_markFirst (ps : List Part) :
    editLast? Token.next (markFirst ps) = (editLast? Token.next ps).map markFirst := by
  induction ps with
  | nil => rfl
  | cons p ps ih =>
    cases p with
    | hole =>
      rw [markFirst_hole, editLast?_hole, ih, editLast?_hole, Option.map_map, Option.map_map]
      congr 1
      funext qs
      exact (markFirst_hole qs).symm
    | token t =>
      rw [markFirst_token]
      cases h : editLast? Token.next ps with
      | none =>
        rw [editLast?_token_of_eq_none h, editLast?_token_of_eq_none h, Option.map_some,
          markFirst_token, Token.next_mark]
      | some qs =>
        rw [editLast?_cons_of_eq_some h, editLast?_cons_of_eq_some h, Option.map_some,
          markFirst_token]

/-- But for the wildcard token, parts stand for the wildcard if they do so when they are marked. -/
theorem areNamelessParts_markFirst_eq {ps : List Part} (h : ps ≠ [token [underscore]]) :
    Name.areNamelessParts (markFirst ps) = Name.areNamelessParts ps := by
  cases ht : firstText? ps with
  | none =>
    have hmark : markFirst ps = ps := ((TokenBearer.markLaws ps).of_token?_eq_none ht).1
    rw [hmark]
  | some t =>
    rw [areNamelessParts_markFirst ht, eq_comm, Bool.eq_false_iff, Ne, Name.areNamelessParts_iff]
    rintro (rfl | rfl | hwild)
    · cases ht
    · cases ht
    · exact h hwild

end Part

/-! ## Marked names -/

namespace Name

/-- A name is marked and varied in either order, unless it is the wildcard token. -/
theorem next?_mark {x : Name} (h : x.identity ≠ .identifier [.token [underscore]]) :
    x.mark.next? = x.next?.map mark := by
  obtain ⟨identity, range⟩ := x
  cases identity with
  | anonymous id => rfl
  | identifier parts =>
    have hnameless := Part.areNamelessParts_markFirst_eq fun hparts =>
      h (congrArg Identity.identifier hparts)
    show (ofParts range (Part.markFirst parts)).next? = (ofParts range parts).next?.map mark
    rw [next?_ofParts, next?_ofParts, hnameless, Part.editLast?_markFirst]
    split
    · rfl
    · rw [Option.map_map, Option.map_map]
      rfl

/-- The next variation of a marked name is the marked next variation. -/
theorem next?_mark_of_next? {x y : Name} (h : x.next? = some y) : x.mark.next? = some y.mark := by
  obtain ⟨before, t, after, -, hne, hx, -⟩ := exists_eq_ofParts_next h
  have hwild : x.identity ≠ .identifier [.token [underscore]] := by
    rw [hx]
    exact fun hwild => hne (Identity.identifier.inj hwild)
  rw [next?_mark hwild, h, Option.map_some]

/-- All variations of a marked name are marked ones. -/
theorem variation?_mark {k : ℕ} {x y : Name} (h : variation? k x = some y) :
    variation? k x.mark = some y.mark := by
  induction k generalizing x with
  | zero =>
    cases h
    rfl
  | succ k ih =>
    obtain ⟨z, hz, hy⟩ := Option.bind_eq_some_iff.mp h
    rw [variation?, next?_mark_of_next? hz, Option.bind_some, ih hy]

end Name

/-! ## Marked qualified names -/

/-- The mark of a qualified name does not depend on a segment at its inner end, which may be put
there along the path, too. -/
structure QualifyLaws (q : QualifiedName) (x : Name) : Prop where
  /-- The segment is put behind a marked name or a name is marked with it. -/
  mark_qualify : mark (q.qualify x) = (mark q).qualify x
  /-- A mark is taken off in front of the segment. -/
  strip?_qualify : strip? (q.qualify x) = (strip? q).map fun r => r.qualify x
  /-- There is no mark if there was none. -/
  strip?_qualify_eq_none_iff : strip? (q.qualify x) = none ↔ strip? q = none
  /-- The segment is put there by recursion along the path. -/
  toQualifiedName_qualify : (q.path.qualify x).toQualifiedName = q.qualify x

namespace QualifiedName

/-- A qualified name is marked and gets one more segment in either order. -/
theorem mark_qualify (q : QualifiedName) (x : Name) : (q.qualify x).mark = q.mark.qualify x := by
  obtain ⟨_ | ⟨y, ys⟩, last⟩ := q <;> rfl

/-- The mark is also taken off before or after there is one more segment. -/
theorem strip?_qualify (q : QualifiedName) (x : Name) :
    (q.qualify x).strip? = q.strip?.map fun r => r.qualify x := by
  obtain ⟨_ | ⟨y, ys⟩, last⟩ := q
  · show last.strip?.map (fun z => QualifiedName.mk [z] x) = (last.strip?.map simple).map _
    rw [Option.map_map]
    rfl
  · show y.strip?.map (fun z => QualifiedName.mk (z :: (ys ++ [last])) x) =
      (y.strip?.map fun z => QualifiedName.mk (z :: ys) last).map _
    rw [Option.map_map]
    rfl

theorem qualifyLaws (q : QualifiedName) (x : Name) : QualifyLaws q x where
  mark_qualify := mark_qualify q x
  strip?_qualify := strip?_qualify q x
  strip?_qualify_eq_none_iff := by
    rw [show MixfixNames.strip? (q.qualify x) = _ from strip?_qualify q x, Option.map_eq_none_iff]
    rfl
  toQualifiedName_qualify := by rw [← NamePath.path_qualify, NamePath.toQualifiedName_path]

/-- The last segment of a name with qualifiers bears no mark, and its range is kept. -/
theorem unqualified_mark {q : QualifiedName} (h : q.isQualified = true) :
    q.mark.unqualified = q.unqualified := by
  have hrange : q.mark.range = q.range := q.marksEdit.of_mark.range_eq
  rw [unqualified, unqualified, hrange]
  obtain ⟨_ | ⟨y, ys⟩, last⟩ := q
  · cases h
  · rfl

end QualifiedName

/-- Marking commutes with varying and with qualification, ranges included: the variation of a marked
name is the marked variation, a qualified name may be marked before or after it gets a segment, and
behind a marked qualifier there is the same name. -/
theorem mark_commutes :
    (∀ x y : Name, x.next? = some y → (mark x).next? = some (mark y)) ∧
      (∀ (q : QualifiedName) (x : Name), QualifyLaws q x) ∧
      ∀ q : QualifiedName, q.isQualified = true → (mark q).unqualified = q.unqualified := by
  refine ⟨fun x y h => ?_, fun q x => q.qualifyLaws x, fun q h => ?_⟩
  · exact Name.next?_mark_of_next? h
  · exact QualifiedName.unqualified_mark h

-- the wildcard token is varied only once it is marked
example : (Name.ofRaw .unknown [underscore]).next? = none ∧
    (Name.ofRaw .unknown [underscore]).mark.next? =
      some (Name.ofParts .unknown [.token [Token.semicolon, underscore, '₁']]) := ⟨rfl, rfl⟩

end MixfixNames
