/-
# One Token at a Time

A mark is put on the first token of a name and taken off there, and a name is varied in its last
token. Whichever token that is, it stays a token and all other parts stay what they are, so the name
keeps its range and its shape. Of a qualified name only the outermost segment is touched, in this
way. The main statement, `edits_change_one_token`, says so, and what becomes of the token.
-/
import MixfixNames.Proofs.Mark.Laws
import MixfixNames.Proofs.Name.Variations

namespace MixfixNames

/-! ## Edited parts -/

namespace Part

/-- The token of a sequence of parts that an edit is made in. -/
inductive Site where
  /-- The first token. -/
  | first
  /-- The last token. -/
  | last

/-- The token between `before` and `behind` is the one at the site: no other one stands before the
first token, or behind the last one. -/
def Site.IsBetween : Site → List Part → List Part → Prop
  | first, before, _ => texts before = []
  | last, _, behind => texts behind = []

/-- The parts with another text for the token at the site, one that the old text is related to.
Parts without a token stay as they are. -/
inductive Edited (site : Site) (R : Text → Text → Prop) : List Part → List Part → Prop
  /-- There is no token. -/
  | noToken {ps : List Part} (h : texts ps = []) : Edited site R ps ps
  /-- The token at the site has another text. -/
  | token {before behind : List Part} (h : site.IsBetween before behind) {t u : Text} (hR : R t u) :
    Edited site R (before ++ .token t :: behind) (before ++ .token u :: behind)

variable {site : Site} {R : Text → Text → Prop} {ps qs : List Part}

/-- Whatever the text of a token, it is no hole. -/
theorem Edited.map_isHole_eq (h : Edited site R ps qs) : qs.map isHole = ps.map isHole := by
  cases h with
  | noToken h => rfl
  | token h hR => simp [isHole]

/-- A hole in front does not matter to an edit of the first token. -/
theorem Edited.hole_cons (h : Edited .first R ps qs) :
    Edited .first R (hole :: ps) (hole :: qs) := by
  cases h with
  | noToken h => exact .noToken h
  | @token before behind h t u hR =>
    have hsite : Site.IsBetween .first (hole :: before) behind := h
    exact .token hsite hR

/-- Replacing the first text is an edit of the first token. -/
theorem edited_withFirstText {t u : Text} (h : firstText? ps = some t) (hR : R t u) :
    Edited .first R ps (withFirstText u ps) := by
  induction ps with
  | nil => cases h
  | cons p ps ih =>
    cases p with
    | hole => exact (ih h).hole_cons
    | token s =>
      obtain rfl : s = t := Option.some.inj h
      have hsite : Site.IsBetween .first [] ps := rfl
      exact .token hsite hR

/-- Editing the last token is an edit of it. -/
theorem edited_of_editLast? {edit : Text → Text} (h : editLast? edit ps = some qs) :
    Edited .last (fun t u => edit t = u) ps qs := by
  have htexts : texts ps ≠ [] := by
    intro hnil
    rw [editLast?_eq_none_iff.mpr hnil] at h
    cases h
  obtain ⟨before, t, behind, rfl, hbehind⟩ := exists_last_token htexts
  rw [editLast?_append_token edit before t hbehind] at h
  obtain rfl := Option.some.inj h
  have hsite : Site.IsBetween .last before behind := hbehind
  exact .token hsite rfl

end Part

/-! ## Edited names -/

/-- An identifier with edited parts; a wildcard stays the same one. -/
inductive Identity.Edited (site : Part.Site) (R : Text → Text → Prop) : Identity → Identity → Prop
  /-- A wildcard has no token. -/
  | anonymous (id : AnonymousId) : Edited site R (.anonymous id) (.anonymous id)
  /-- An identifier is edited in its parts. -/
  | identifier {ps qs : List Part} (h : Part.Edited site R ps qs) :
    Edited site R (.identifier ps) (.identifier qs)

namespace Name

/-- `y` is `x` with another text for the token at the site, and has the range and the shape of
`x`. -/
structure IsEdit (site : Part.Site) (R : Text → Text → Prop) (x y : Name) : Prop where
  /-- At most that one token differs. -/
  identity_edited : x.identity.Edited site R y.identity
  /-- The name stands where it stood. -/
  range_eq : y.range = x.range
  /-- There are as many parts. -/
  length_eq : y.shownParts.length = x.shownParts.length
  /-- The holes are where they were. -/
  map_isHole_eq : y.shownParts.map Part.isHole = x.shownParts.map Part.isHole
  /-- The same ends are open. -/
  fixity?_eq : y.fixity? = x.fixity?
  /-- There are as many holes. -/
  holeCount_eq : y.holeCount = x.holeCount
  /-- It is an operator if it was one. -/
  isOperator_eq : y.isOperator = x.isOperator
  /-- It is an open operator if it was one. -/
  isOpen_eq : y.isOpen = x.isOpen

variable {site : Part.Site} {R : Text → Text → Prop} {x y : Name}

/-- The shape follows from the holes. -/
theorem isEdit_of_identity_edited (h : x.identity.Edited site R y.identity)
    (hrange : y.range = x.range) : IsEdit site R x y := by
  obtain ⟨identity, range⟩ := x
  obtain ⟨identity', range'⟩ := y
  have hholes : (shownParts ⟨identity', range'⟩).map Part.isHole =
      (shownParts ⟨identity, range⟩).map Part.isHole := by
    cases h with
    | anonymous id => rfl
    | identifier h => exact h.map_isHole_eq
  have hlength := congrArg List.length hholes
  rw [List.length_map, List.length_map] at hlength
  exact {
    identity_edited := h
    range_eq := hrange
    length_eq := hlength
    map_isHole_eq := hholes
    fixity?_eq := Part.of?_eq_of_map_isHole_eq hholes
    holeCount_eq := Part.holeCount_eq_of_map_isHole_eq hholes
    isOperator_eq := Part.isOperator_eq_of_map_isHole_eq hholes
    isOpen_eq := Part.isOpen_eq_of_map_isHole_eq hholes }

/-- Without a token a name is an edit of itself. -/
theorem isEdit_self_of_firstText?_eq_none (h : x.firstText? = none) : IsEdit .first R x x := by
  refine isEdit_of_identity_edited ?_ rfl
  obtain ⟨identity, range⟩ := x
  cases identity with
  | anonymous id => exact .anonymous id
  | identifier parts => exact .identifier (.noToken (List.head?_eq_none_iff.mp h))

/-- Replacing the first text of a name is an edit of its first token. -/
theorem isEdit_withFirstText {t u : Text} (h : x.firstText? = some t) (hR : R t u) :
    IsEdit .first R x (x.withFirstText u) := by
  obtain ⟨identity, range⟩ := x
  cases identity with
  | anonymous id => cases h
  | identifier parts =>
    exact isEdit_of_identity_edited (.identifier (Part.edited_withFirstText h hR)) rfl

/-- The next variation of a name is an edit of its last token. -/
theorem isEdit_of_next? (h : x.next? = some y) :
    IsEdit .last (fun t u => Token.next t = u) x y := by
  obtain ⟨identity, range⟩ := x
  cases identity with
  | anonymous id => cases h
  | identifier parts =>
    simp only [next?, Option.ite_none_left_eq_some] at h
    obtain ⟨qs, hqs, rfl⟩ := Option.map_eq_some_iff.mp h.2
    exact isEdit_of_identity_edited (.identifier (Part.edited_of_editLast? hqs)) rfl

end Name

/-! ## Edited qualified names -/

namespace QualifiedName

/-- The outermost segment stands in front of the others. -/
theorem segments_eq_cons (q : QualifiedName) : q.segments = q.first :: q.segments.tail := by
  obtain ⟨_ | ⟨x, xs⟩, last⟩ := q <;> rfl

/-- The innermost segment is the last one behind the outermost, or the outermost itself. -/
theorem last_eq (q : QualifiedName) : q.last = q.segments.tail.getLast?.getD q.first := by
  obtain ⟨_ | ⟨x, xs⟩, last⟩ := q
  · rfl
  · simp [segments]

/-- `r` is `q` with another text for the first token of its outermost segment, and has the other
segments, the range and the arguments of `q`. -/
structure IsEdit (R : Text → Text → Prop) (q r : QualifiedName) : Prop where
  /-- The outermost segment is edited in its first token. -/
  first_isEdit : Name.IsEdit .first R q.first r.first
  /-- The other segments are the same. -/
  tail_eq : r.segments.tail = q.segments.tail
  /-- There are as many segments. -/
  length_eq : r.segments.length = q.segments.length
  /-- The same range is covered. -/
  range_eq : r.range = q.range
  /-- There are as many holes. -/
  holeCount_eq : r.holeCount = q.holeCount

variable {R : Text → Text → Prop} {q r : QualifiedName}

/-- Range and arguments follow from the segments. -/
theorem isEdit_of_first_isEdit (hfirst : Name.IsEdit .first R q.first r.first)
    (htail : r.segments.tail = q.segments.tail) : IsEdit R q r where
  first_isEdit := hfirst
  tail_eq := htail
  length_eq := by
    rw [segments_eq_cons r, segments_eq_cons q, htail, List.length_cons, List.length_cons]
  range_eq := by
    rw [range, range, segments_eq_cons r, segments_eq_cons q, htail, List.map_cons, List.map_cons,
      hfirst.range_eq]
  holeCount_eq := by
    rw [holeCount, holeCount, last_eq r, last_eq q, htail]
    cases q.segments.tail.getLast? with
    | none => exact hfirst.holeCount_eq
    | some x => rfl

theorem isEdit_self_of_firstText?_eq_none (h : q.first.firstText? = none) : IsEdit R q q :=
  isEdit_of_first_isEdit (Name.isEdit_self_of_firstText?_eq_none h) rfl

theorem isEdit_withFirstText {t u : Text} (h : q.first.firstText? = some t) (hR : R t u) :
    IsEdit R q (q.withFirstText u) := by
  obtain ⟨_ | ⟨x, xs⟩, last⟩ := q
  · exact isEdit_of_first_isEdit (Name.isEdit_withFirstText h hR) rfl
  · exact isEdit_of_first_isEdit (Name.isEdit_withFirstText h hR) rfl

end QualifiedName

/-! ## Marks -/

/-- Putting on a mark and taking it off edit a value in the token that bears the mark. -/
structure MarksEdit {α : Type} [Markable α] (IsEdit : (Text → Text → Prop) → α → α → Prop)
    (x : α) : Prop where
  /-- A mark is put on the token. -/
  of_mark : IsEdit (fun t u => mark t = u) x (mark x)
  /-- A mark is taken off the token. -/
  of_strip? : ∀ y ∈ strip? x, IsEdit (fun t u => strip? t = some u) x y
  /-- A mark is taken off the token if it has one. -/
  of_unmark : IsEdit (fun t u => unmark t = u) x (unmark x)

namespace TokenBearer

variable {α : Type} [Markable α] [BEq α] [TokenBearer α]

/-- The mark is taken off the token of a value, if it has one. -/
theorem unmark_of_token? {x : α} {t : Text} (h : token? x = some t) :
    unmark x = withToken (unmark t) x := by
  rw [unmark, unmark, strip?_of_token? h]
  show _ = withToken ((Token.strip? t).getD t) x
  cases Token.strip? t with
  | none => exact (withToken_self x t h).symm
  | some u => rfl

/-- Whatever replaces the token of a value, marks edit the value in it. -/
theorem marksEdit {IsEdit : (Text → Text → Prop) → α → α → Prop}
    (hself : ∀ {R x}, token? x = none → IsEdit R x x)
    (hwith : ∀ {R x t u}, token? x = some t → R t u → IsEdit R x (withToken u x)) (x : α) :
    MarksEdit IsEdit x := by
  cases h : token? x with
  | none =>
    obtain ⟨hmark, hstrip⟩ := (markLaws x).of_token?_eq_none h
    constructor
    case of_mark => exact hmark.symm ▸ hself h
    case of_strip? => simp [hstrip]
    case of_unmark => exact (unmark_of_strip?_eq_none hstrip).symm ▸ hself h
  | some t =>
    constructor
    case of_mark => exact mark_of_token? h ▸ hwith h rfl
    case of_strip? =>
      intro y hy
      rw [strip?_of_token? h] at hy
      obtain ⟨u, hu, rfl⟩ := Option.map_eq_some_iff.mp hy
      exact hwith h hu
    case of_unmark => exact unmark_of_token? h ▸ hwith h rfl

end TokenBearer

/-- Marks edit a name in its first token. -/
theorem Name.marksEdit (x : Name) : MarksEdit (IsEdit .first) x :=
  TokenBearer.marksEdit isEdit_self_of_firstText?_eq_none isEdit_withFirstText x

theorem QualifiedName.marksEdit (q : QualifiedName) : MarksEdit IsEdit q :=
  TokenBearer.marksEdit isEdit_self_of_firstText?_eq_none isEdit_withFirstText q

/-- Marks and variations edit a name in one token, the first or the last one, and a qualified name
in the first token of its outermost segment. -/
theorem edits_change_one_token :
    (∀ x : Name, MarksEdit (Name.IsEdit .first) x ∧
      ∀ y ∈ x.next?, Name.IsEdit .last (fun t u => Token.next t = u) x y) ∧
    ∀ q : QualifiedName, MarksEdit QualifiedName.IsEdit q := by
  refine ⟨fun x => ⟨x.marksEdit, fun y hy => ?_⟩, fun q => q.marksEdit⟩
  exact Name.isEdit_of_next? hy

end MixfixNames
