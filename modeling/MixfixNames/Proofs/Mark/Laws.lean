/-
# The Laws of the Mark

On every level the mark is that of one token: of the token itself, of the first token of a
sequence of parts or of a name, and of the first token of the outermost segment of a qualified
name. Whatever holds of the mark of a token is therefore lifted once, for all values that bear
their mark in a token, and each level only has to say which token that is and how it is replaced.
The main statement, `markLaws_of_every_level`, says when a mark is put on, when it is taken off
again, and when both lead back to where they started.
-/
import MixfixNames.Mark

namespace MixfixNames

/-! ## The mark of a token -/

namespace Token

/-- A token with a mark stays as it is. -/
theorem mark_of_head?_eq {t : Text} (h : t.head? = some semicolon) : mark t = t := by
  rw [mark, if_pos h]

/-- A token without a mark gets one. -/
theorem mark_of_head?_ne {t : Text} (h : t.head? ≠ some semicolon) : mark t = semicolon :: t := by
  rw [mark, if_neg h]

/-- A token loses its mark if there is something behind it. -/
theorem strip?_eq_some_iff {t u : Text} : strip? t = some u ↔ t = semicolon :: u ∧ u ≠ [] := by
  cases t with
  | nil => simp [strip?]
  | cons c t =>
    simp only [strip?, List.cons.injEq]
    constructor
    · intro h
      split at h
      · next hc =>
        obtain rfl := Option.some.inj h
        exact ⟨⟨hc.1, rfl⟩, hc.2⟩
      · cases h
    · rintro ⟨⟨rfl, rfl⟩, hu⟩
      rw [if_pos ⟨rfl, hu⟩]

/-- A mark can be taken off if it stands in front of something. -/
theorem isSome_strip?_iff {t : Text} :
    (strip? t).isSome = true ↔ t.head? = some semicolon ∧ t ≠ [semicolon] := by
  rw [Option.isSome_iff_exists]
  constructor
  · rintro ⟨u, hu⟩
    obtain ⟨rfl, hne⟩ := strip?_eq_some_iff.mp hu
    exact ⟨rfl, fun h => hne (List.cons.inj h).2⟩
  · rintro ⟨hhead, hne⟩
    obtain ⟨u, rfl⟩ := List.head?_eq_some_iff.mp hhead
    refine ⟨u, strip?_eq_some_iff.mpr ⟨rfl, ?_⟩⟩
    rintro rfl
    exact hne rfl

/-- The mark comes off again if it was put on and there is something behind it. -/
theorem strip?_mark_eq_some_iff {t : Text} :
    strip? (mark t) = some t ↔ t ≠ [] ∧ t.head? ≠ some semicolon := by
  rw [strip?_eq_some_iff]
  by_cases h : t.head? = some semicolon
  · rw [mark_of_head?_eq h]
    -- a token is never longer than itself
    have hlonger : t ≠ semicolon :: t := List.ne_cons_self
    simp [h, hlonger]
  · simp [mark_of_head?_ne h, h]

/-- The mark can be taken off again unless there is nothing else in the token. -/
theorem isSome_strip?_mark_iff {t : Text} :
    (strip? (mark t)).isSome = true ↔ t ≠ [] ∧ t ≠ [semicolon] := by
  rw [isSome_strip?_iff]
  by_cases h : t.head? = some semicolon
  · have hne : t ≠ [] := by
      rintro rfl
      cases h
    simp [mark_of_head?_eq h, h, hne]
  · have hne : t ≠ [semicolon] := by
      rintro rfl
      exact h rfl
    simp [mark_of_head?_ne h, hne]

/-- Putting a mark back on leads to the marked token if the token behind it has none. -/
theorem mark_eq_iff_of_strip? {t u : Text} (h : strip? t = some u) :
    mark u = t ↔ u.head? ≠ some semicolon := by
  obtain ⟨rfl, -⟩ := strip?_eq_some_iff.mp h
  by_cases hu : u.head? = some semicolon
  · simp [mark_of_head?_eq hu, hu]
  · simp [mark_of_head?_ne hu, hu]

example : mark (unmark ";;a".toList) = ";a".toList := by decide

/-- Taking off the mark changes the token. -/
theorem ne_of_strip? {t u : Text} (h : strip? t = some u) : u ≠ t := by
  obtain ⟨rfl, -⟩ := strip?_eq_some_iff.mp h
  exact List.ne_cons_self

end Token

/-! ## The laws -/

/-- The laws of the mark of a value `x`, given the token that bears the mark of a value. -/
structure MarkLaws {α : Type} [Markable α] [BEq α] (token? : α → Option Text) (x : α) : Prop where
  /-- The mark is put on once. -/
  mark_mark : mark (mark x) = mark x
  /-- Without a token there is nothing to mark and no mark. -/
  of_token?_eq_none : token? x = none → mark x = x ∧ strip? x = none
  /-- There is a mark if the token starts with one and does not end behind it. -/
  isMarked_iff : isMarked x = true ↔
    ∃ t ∈ token? x, t.head? = some Token.semicolon ∧ t ≠ [Token.semicolon]
  /-- The mark comes off again if the token was neither empty nor marked. -/
  strip?_mark_iff : strip? (mark x) = some x ↔
    ∃ t ∈ token? x, t ≠ [] ∧ t.head? ≠ some Token.semicolon
  /-- Marking leaves a mark if the token is neither empty nor the bare mark. -/
  isMarked_mark_iff : isMarked (mark x) = true ↔
    ∃ t ∈ token? x, t ≠ [] ∧ t ≠ [Token.semicolon]
  /-- Putting the mark back on leads back unless there was another mark behind it. -/
  mark_iff_of_strip? : ∀ y, strip? x = some y →
    (mark y = x ↔ ¬∃ t ∈ token? y, t.head? = some Token.semicolon)
  /-- Taking off the mark changes exactly the values that have one. -/
  unmark_eq_iff : unmark x = x ↔ isMarked x = false
  /-- Of what is made of `x` in these ways, whatever equals `x` is `x`, ranges included. -/
  eq_of_beq : ∀ y, (y = unmark x ∨ strip? (mark x) = some y ∨ ∃ z, strip? x = some z ∧ mark z = y) →
    (y == x) = true → y = x

/-- Values that bear their mark in a token. -/
class TokenBearer (α : Type) [Markable α] [BEq α] where
  /-- The token that bears the mark, if there is one. -/
  token? : α → Option Text
  /-- The value with another text for that token. -/
  withToken : Text → α → α
  /-- The value is marked in its token. -/
  mark_eq : ∀ x, mark x = (token? x).elim x fun t => withToken (Token.mark t) x
  /-- The value loses the mark of its token. -/
  strip?_eq : ∀ x, strip? x = (token? x).bind fun t => (Token.strip? t).map (withToken · x)
  /-- The token is the one that was put in place of another. -/
  token?_withToken : ∀ u x, token? (withToken u x) = (token? x).map fun _ => u
  /-- A token replaced twice is replaced by the second text. -/
  withToken_withToken : ∀ u v x, withToken v (withToken u x) = withToken v x
  /-- Replaced by itself a token stays as it is. -/
  withToken_self : ∀ x, ∀ t ∈ token? x, withToken t x = x
  /-- Equal values have the same token. -/
  token?_of_beq : ∀ x y, (x == y) = true → token? x = token? y

namespace TokenBearer

section Laws

variable {α : Type} [Markable α] [BEq α] [TokenBearer α] {x : α} {t u : Text}

/-- A value is marked in its token. -/
theorem mark_of_token? (h : token? x = some t) : mark x = withToken (Token.mark t) x := by
  rw [mark_eq, h]
  rfl

/-- The mark is taken off the token of a value. -/
theorem strip?_of_token? (h : token? x = some t) :
    strip? x = (Token.strip? t).map (withToken · x) := by
  rw [strip?_eq, h]
  rfl

/-- A value around `x` that is marked where `x` is. -/
theorem apply_mark {β : Type} (around : α → β) (x : α) :
    around (mark x) =
      (token? x).elim (around x) fun t => around (withToken (Token.mark t) x) := by
  rw [mark_eq]
  cases token? x <;> rfl

/-- A value around `x` that loses its mark where `x` does. -/
theorem map_strip? {β : Type} (around : α → β) (x : α) :
    (strip? x).map around =
      (token? x).bind fun t => (Token.strip? t).map fun u => around (withToken u x) := by
  rw [strip?_eq, Option.map_bind]
  simp only [Function.comp_def, Option.map_map]

/-- A token that replaces the one there is the token then. -/
theorem token?_withToken_of_token? (h : token? x = some t) (u : Text) :
    token? (withToken u x) = some u := by
  rw [token?_withToken, h]
  rfl

/-- The token of a marked value is the marked token. -/
theorem token?_mark (x : α) : token? (mark x) = (token? x).map Token.mark := by
  cases h : token? x with
  | none =>
    rw [mark_eq, h]
    exact h
  | some t =>
    rw [mark_of_token? h, token?_withToken_of_token? h]
    rfl

/-- Marking goes to the token that was put in. -/
theorem mark_withToken (h : token? x = some t) (u : Text) :
    mark (withToken u x) = withToken (Token.mark u) x := by
  rw [mark_of_token? (token?_withToken_of_token? h u), withToken_withToken]

/-- The mark is taken off the token that was put in. -/
theorem strip?_withToken (h : token? x = some t) (u : Text) :
    strip? (withToken u x) = (Token.strip? u).map (withToken · x) := by
  rw [strip?_of_token? (token?_withToken_of_token? h u)]
  simp only [withToken_withToken]

/-- A token may be replaced without a change by itself alone. -/
theorem withToken_eq_self_iff (h : token? x = some t) : withToken u x = x ↔ u = t := by
  constructor
  · intro hx
    have htoken := token?_withToken_of_token? h u
    rw [hx, h] at htoken
    exact (Option.some.inj htoken).symm
  · rintro rfl
    exact withToken_self x u h

/-- Replacing the token changes nothing if the value is still equal. -/
theorem eq_of_withToken_beq (h : token? x = some t) (hx : (withToken u x == x) = true) :
    withToken u x = x := by
  have htoken := token?_of_beq _ _ hx
  rw [token?_withToken_of_token? h, h] at htoken
  exact (withToken_eq_self_iff h).mpr (Option.some.inj htoken)

/-- A value has a mark exactly if its token has. -/
theorem isMarked_of_token? (h : token? x = some t) :
    isMarked x = (Token.strip? t).isSome := by
  rw [isMarked, strip?_of_token? h, Option.isSome_map]

/-- Without a token the laws hold because nothing changes. -/
theorem markLaws_of_token?_eq_none (h : token? x = none) : MarkLaws token? x := by
  have hmark : mark x = x := by
    rw [mark_eq, h]
    rfl
  have hstrip : strip? x = none := by
    rw [strip?_eq, h]
    rfl
  have hmarked : isMarked x = false := by rw [isMarked, hstrip, Option.isSome_none]
  have hunmark : unmark x = x := unmark_of_strip?_eq_none hstrip
  constructor
  case mark_mark => rw [hmark, hmark]
  case of_token?_eq_none => exact fun _ => ⟨hmark, hstrip⟩
  case isMarked_iff => simp [hmarked, h]
  case strip?_mark_iff => simp [hmark, hstrip, h]
  case isMarked_mark_iff => simp [hmark, hmarked, h]
  case mark_iff_of_strip? => simp [hstrip]
  case unmark_eq_iff => simp [hunmark, hmarked]
  case eq_of_beq => simp [hunmark, hmark, hstrip]

/-- The laws of the mark of a token hold of every value that bears it. -/
theorem markLaws_of_token? (h : token? x = some t) : MarkLaws token? x := by
  have hmark := mark_of_token? h
  have hstrip := strip?_of_token? h
  have hstripMark : strip? (mark x) = (Token.strip? (Token.mark t)).map (withToken · x) := by
    rw [hmark, strip?_withToken h]
  -- in every law `x` gives way to its token, and the same law of tokens is left
  constructor
  case mark_mark => rw [hmark, mark_withToken h, Token.mark_mark]
  case of_token?_eq_none =>
    intro hnone
    rw [hnone] at h
    cases h
  case isMarked_iff => simp [isMarked_of_token? h, Token.isSome_strip?_iff, h]
  case strip?_mark_iff =>
    rw [hstripMark, Option.map_eq_some_iff]
    simp [withToken_eq_self_iff h, Token.strip?_mark_eq_some_iff, h]
  case isMarked_mark_iff =>
    rw [isMarked, hstripMark, Option.isSome_map, Token.isSome_strip?_mark_iff]
    simp [h]
  case mark_iff_of_strip? =>
    intro y hy
    rw [hstrip] at hy
    obtain ⟨u, hu, rfl⟩ := Option.map_eq_some_iff.mp hy
    rw [mark_withToken h, withToken_eq_self_iff h, Token.mark_eq_iff_of_strip? hu]
    simp [token?_withToken_of_token? h]
  case unmark_eq_iff =>
    rw [isMarked_of_token? h, unmark, hstrip]
    cases hu : Token.strip? t with
    | none => simp
    | some u => simp [withToken_eq_self_iff h, Token.ne_of_strip? hu]
  case eq_of_beq =>
    -- each of the three values is `x` with some token in place of its own
    rintro y (rfl | hy | ⟨z, hz, rfl⟩) hx
    · rw [unmark, hstrip] at hx ⊢
      cases hu : Token.strip? t with
      | none => rfl
      | some u =>
        rw [hu] at hx
        exact eq_of_withToken_beq h hx
    · rw [hstripMark] at hy
      obtain ⟨u, -, rfl⟩ := Option.map_eq_some_iff.mp hy
      exact eq_of_withToken_beq h hx
    · rw [hstrip] at hz
      obtain ⟨u, -, rfl⟩ := Option.map_eq_some_iff.mp hz
      rw [mark_withToken h] at hx ⊢
      exact eq_of_withToken_beq h hx

/-- The laws hold of every value that bears its mark in a token. -/
theorem markLaws (x : α) : MarkLaws token? x := by
  cases h : token? x with
  | none => exact markLaws_of_token?_eq_none h
  | some t => exact markLaws_of_token? h

end Laws

end TokenBearer

/-! ## The levels -/

/-- A token bears its own mark. -/
instance : TokenBearer Text where
  token? := some
  withToken u _ := u
  mark_eq _ := rfl
  strip?_eq t := by
    rw [Option.bind_some, Option.map_id']
    rfl
  token?_withToken _ _ := rfl
  withToken_withToken _ _ _ := rfl
  withToken_self t u hu := (Option.some.inj hu).symm
  token?_of_beq t u h := congrArg some (beq_iff_eq.mp h)

namespace Part

/-- The text of the first token. -/
def firstText? (ps : List Part) : Option Text := (texts ps).head?

/-- The parts with another text for the first token. -/
def withFirstText (u : Text) : List Part → List Part
  | [] => []
  | hole :: ps => hole :: withFirstText u ps
  | token _ :: ps => token u :: ps

theorem firstText?_hole (ps : List Part) : firstText? (hole :: ps) = firstText? ps := rfl

/-- An edit of the first token replaces its text. -/
theorem editFirst?_eq (edit : Text → Option Text) (ps : List Part) :
    editFirst? edit ps =
      (firstText? ps).bind fun t => (edit t).map (withFirstText · ps) := by
  induction ps with
  | nil => rfl
  | cons p ps ih =>
    cases p with
    | hole =>
      rw [editFirst?_hole, ih, firstText?_hole, Option.map_bind]
      congr 1
      funext t
      rw [Function.comp_apply, Option.map_map]
      rfl
    | token t => rfl

/-- The text that replaces the first one is the first one then. -/
theorem firstText?_withFirstText (u : Text) (ps : List Part) :
    firstText? (withFirstText u ps) = (firstText? ps).map fun _ => u := by
  induction ps with
  | nil => rfl
  | cons p ps ih =>
    cases p with
    | hole => rw [withFirstText, firstText?_hole, ih, firstText?_hole]
    | token t => rfl

/-- Of two texts put in one after the other the second one stays. -/
theorem withFirstText_withFirstText (u v : Text) (ps : List Part) :
    withFirstText v (withFirstText u ps) = withFirstText v ps := by
  induction ps with
  | nil => rfl
  | cons p ps ih =>
    cases p with
    | hole => rw [withFirstText, withFirstText, withFirstText, ih]
    | token t => rfl

/-- Putting the first text in again changes nothing. -/
theorem withFirstText_self {ps : List Part} {t : Text} (h : firstText? ps = some t) :
    withFirstText t ps = ps := by
  induction ps with
  | nil => rfl
  | cons p ps ih =>
    cases p with
    | hole => rw [withFirstText, ih h]
    | token s =>
      obtain rfl : s = t := Option.some.inj h
      rfl

end Part

/-- Parts bear the mark in their first token. -/
instance : TokenBearer (List Part) where
  token? := Part.firstText?
  withToken := Part.withFirstText
  mark_eq ps := by
    show (Part.editFirst? _ ps).getD ps = _
    rw [Part.editFirst?_eq]
    cases Part.firstText? ps <;> rfl
  strip?_eq ps := Part.editFirst?_eq Token.strip? ps
  token?_withToken := Part.firstText?_withFirstText
  withToken_withToken := Part.withFirstText_withFirstText
  withToken_self _ _ ht := Part.withFirstText_self ht
  token?_of_beq _ _ h := by rw [beq_iff_eq.mp h]

namespace Name

/-- The text of the first token of the name. -/
def firstText? (x : Name) : Option Text :=
  match x.identity with
  | .anonymous _ => none
  | .identifier parts => Part.firstText? parts

/-- The name with another text for its first token. -/
def withFirstText (u : Text) (x : Name) : Name :=
  match x.identity with
  | .anonymous _ => x
  | .identifier parts => ofParts x.range (Part.withFirstText u parts)

end Name

/-- Names bear the mark in their first token. -/
instance : TokenBearer Name where
  token? := Name.firstText?
  withToken := Name.withFirstText
  mark_eq x := by
    obtain ⟨identity, range⟩ := x
    cases identity with
    | anonymous id => rfl
    | identifier parts => exact TokenBearer.apply_mark (Name.ofParts range) parts
  strip?_eq x := by
    obtain ⟨identity, range⟩ := x
    cases identity with
    | anonymous id => rfl
    | identifier parts => exact TokenBearer.map_strip? (Name.ofParts range) parts
  token?_withToken u x := by
    obtain ⟨identity, range⟩ := x
    cases identity with
    | anonymous id => rfl
    | identifier parts => exact Part.firstText?_withFirstText u parts
  withToken_withToken u v x := by
    obtain ⟨identity, range⟩ := x
    cases identity with
    | anonymous id => rfl
    | identifier parts =>
      exact congrArg (Name.ofParts range) (Part.withFirstText_withFirstText u v parts)
  withToken_self x t ht := by
    obtain ⟨identity, range⟩ := x
    cases identity with
    | anonymous id => rfl
    | identifier parts => exact congrArg (Name.ofParts range) (Part.withFirstText_self ht)
  token?_of_beq x y h := by
    rw [Name.firstText?, Name.beq_iff.mp h]
    rfl

namespace QualifiedName

/-- The name with another text for the first token of its outermost segment. -/
def withFirstText (u : Text) (q : QualifiedName) : QualifiedName :=
  match q.qualifiers with
  | [] => simple (q.last.withFirstText u)
  | x :: xs => ⟨x.withFirstText u :: xs, q.last⟩

/-- Equal qualified names have outermost segments that are equal. -/
theorem identity_first_of_beq {q r : QualifiedName} (h : (q == r) = true) :
    q.first.identity = r.first.identity := by
  have hhead : ∀ q : QualifiedName, q.levels.head?.map Level.identity = some q.first.identity := by
    rintro ⟨_ | ⟨x, xs⟩, last⟩ <;> rfl
  have hlevels := congrArg (fun levels => levels.head?.map Level.identity) (beq_iff.mp h)
  rw [hhead, hhead] at hlevels
  exact Option.some.inj hlevels

end QualifiedName

/-- Qualified names bear the mark in the first token of their outermost segment. -/
instance : TokenBearer QualifiedName where
  token? q := q.first.firstText?
  withToken := QualifiedName.withFirstText
  mark_eq := by
    rintro ⟨_ | ⟨x, xs⟩, last⟩
    · exact TokenBearer.apply_mark QualifiedName.simple last
    · exact TokenBearer.apply_mark (fun y => QualifiedName.mk (y :: xs) last) x
  strip?_eq := by
    rintro ⟨_ | ⟨x, xs⟩, last⟩
    · exact TokenBearer.map_strip? QualifiedName.simple last
    · exact TokenBearer.map_strip? (fun y => QualifiedName.mk (y :: xs) last) x
  token?_withToken u := by
    rintro ⟨_ | ⟨x, xs⟩, last⟩
    · exact TokenBearer.token?_withToken u last
    · exact TokenBearer.token?_withToken u x
  withToken_withToken u v := by
    rintro ⟨_ | ⟨x, xs⟩, last⟩
    · exact congrArg QualifiedName.simple (TokenBearer.withToken_withToken u v last)
    · exact congrArg (fun y => QualifiedName.mk (y :: xs) last)
        (TokenBearer.withToken_withToken u v x)
  withToken_self := by
    rintro ⟨_ | ⟨x, xs⟩, last⟩ t ht
    · exact congrArg QualifiedName.simple (TokenBearer.withToken_self last t ht)
    · exact congrArg (fun y => QualifiedName.mk (y :: xs) last)
        (TokenBearer.withToken_self x t ht)
  token?_of_beq q r h := by
    rw [Name.firstText?, QualifiedName.identity_first_of_beq h]
    rfl

/-- The laws of the mark hold of every token, of every sequence of parts, of every name and of
every qualified name, for the first token that each of them shows. -/
theorem markLaws_of_every_level :
    (∀ t : Text, MarkLaws some t) ∧ (∀ ps : List Part, MarkLaws Part.firstText? ps) ∧
      (∀ x : Name, MarkLaws Name.firstText? x) ∧
        ∀ q : QualifiedName, MarkLaws (fun q => q.first.firstText?) q := by
  refine ⟨fun t => ?_, fun ps => ?_, fun x => ?_, fun q => ?_⟩
  · exact TokenBearer.markLaws t
  · exact TokenBearer.markLaws ps
  · exact TokenBearer.markLaws x
  · exact TokenBearer.markLaws q

end MixfixNames
