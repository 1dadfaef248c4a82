/-
# Names

A name is an identity together with the range where it was written. The identity is either a
possibly mixfix identifier, given by its parts, or one occurrence of the wildcard. Names with the
same identity are the same name wherever they were written: equality, order and hash look at the
identity alone.
-/
import MixfixNames.Anonymous
import MixfixNames.Name.Part
import MixfixNames.SourceRange

namespace MixfixNames

/-! ## Identities -/

/-- What makes a name the name that it is. -/
inductive Identity where
  /-- One occurrence of the wildcard in binding position. -/
  | anonymous (id : AnonymousId)
  /-- A possibly mixfix identifier. -/
  | identifier (parts : List Part)
  deriving DecidableEq, Repr

/-- Every anonymous identity comes before every identifier; the former are ordered by number, the
latter part by part, a shorter identifier before those that go on from it. -/
instance : Ord Identity where
  compare
    | .anonymous i, .anonymous j => compare i j
    | .anonymous _, .identifier _ => .lt
    | .identifier _, .anonymous _ => .gt
    | .identifier ps, .identifier qs => compare ps qs

/-- An identity feeds whether it is an identifier, and its number or its parts. -/
instance : Feeds Identity where
  feed
    | .anonymous id => .number 0 :: feed id
    | .identifier parts => .number 1 :: feedAll parts

/-! ## Names -/

/-- A name as it stands in a source file. -/
structure Name where
  /-- What the name is. -/
  identity : Identity
  /-- Where it was written. -/
  range : SourceRange
  deriving Repr

namespace Name

/-- Names are the same name when their identities agree. -/
instance : BEq Name := ⟨fun x y => x.identity == y.identity⟩

/-- Names are ordered by identity. -/
instance : Ord Name := ⟨fun x y => compare x.identity y.identity⟩

/-- A name feeds its identity, wherever it was written. -/
instance : Feeds Name := ⟨fun x => feed x.identity⟩

/-- Being the same name means having the same identity. -/
theorem beq_iff {x y : Name} : (x == y) = true ↔ x.identity = y.identity := by
  show (x.identity == y.identity) = true ↔ x.identity = y.identity
  exact beq_iff_eq

/-! ### Making names -/

/-- The identifier with the given parts. -/
def ofParts (range : SourceRange) (parts : List Part) : Name := ⟨.identifier parts, range⟩

/-- The name that a raw identifier denotes. -/
def ofRaw (range : SourceRange) (raw : Text) : Name := ofParts range (Part.ofRaw raw)

/-- The identifier that is a single token. -/
def simple (range : SourceRange) (text : Text) : Name := ofParts range [.token text]

/-- The operator that is a token with an argument on either side. -/
def betweenHoles (range : SourceRange) (text : Text) : Name :=
  ofParts range [.hole, .token text, .hole]

/-- The identifier that is a single hole. -/
def hole (range : SourceRange) : Name := ofParts range [.hole]

/-- The wildcard occurrence with the given identity. -/
def anonymous (range : SourceRange) (id : AnonymousId) : Name := ⟨.anonymous id, range⟩

/-! ### Ranges -/

/-- The same name at another range. -/
def atRange (x : Name) (range : SourceRange) : Name := { x with range }

/-- The same name without its range. -/
def eraseRange (x : Name) : Name := x.atRange .unknown

/-- Another range leaves the name the same name. -/
theorem atRange_beq (x : Name) (range : SourceRange) : (x.atRange range == x) = true :=
  beq_iff.mpr rfl

/-- A name has the range that it is given. -/
@[simp] theorem range_atRange (x : Name) (range : SourceRange) :
    (x.atRange range).range = range := rfl

/-! ### Parts and text -/

/-- Whether the name is an occurrence of the wildcard. -/
def isAnonymous (x : Name) : Bool :=
  match x.identity with
  | .anonymous _ => true
  | .identifier _ => false

/-- The parts of the name as it is printed. The wildcard is printed as the single token `_`. -/
def shownParts (x : Name) : List Part :=
  match x.identity with
  | .anonymous _ => [.token [underscore]]
  | .identifier parts => parts

/-- The fragments that the name can be searched by: the texts of its tokens. -/
def fragments (x : Name) : List Text := Part.texts x.shownParts

/-- The name as it is printed, which is its raw identifier. -/
def render (x : Name) : Text := Part.renderAll x.shownParts

/-- The name as it is inspected. An anonymous name shows its identity too. -/
def inspect (x : Name) : Text :=
  let shown := match x.identity with
    | .anonymous id => underscore :: id.render
    | .identifier _ => x.render
  "Name(".toList ++ shown ++ [')']

/-- The name of a raw identifier is printed as that identifier. -/
theorem render_ofRaw (range : SourceRange) (raw : Text) : (ofRaw range raw).render = raw :=
  Part.renderAll_ofRaw raw

/-- Raw identifiers denote the same name only if they are equal. -/
theorem ofRaw_beq_iff {r r' : SourceRange} {s t : Text} :
    (ofRaw r s == ofRaw r' t) = true ↔ s = t := by
  rw [beq_iff]
  constructor
  · intro h
    exact Part.ofRaw_injective (Identity.identifier.inj h)
  · rintro rfl
    rfl

/-! ### The wildcard in binding position -/

/-- Whether a text is the wildcard. -/
def isWildcard (s : Text) : Bool := s == [underscore]

/-- Whether parts stand for the wildcard: there are none, or only a hole, or only the wildcard
token. -/
def areNamelessParts : List Part → Bool
  | [] => true
  | [.hole] => true
  | [.token t] => isWildcard t
  | _ => false

/-- Whether the name stands for the wildcard in binding position. -/
def isNameless (x : Name) : Bool := areNamelessParts x.shownParts

/-- Anonymous names are no names. -/
theorem isNameless_anonymous (range : SourceRange) (id : AnonymousId) :
    (anonymous range id).isNameless = true := rfl

theorem areNamelessParts_iff {ps : List Part} :
    areNamelessParts ps = true ↔ ps = [] ∨ ps = [.hole] ∨ ps = [.token [underscore]] := by
  constructor
  · intro h
    unfold areNamelessParts at h
    split at h
    · exact Or.inl rfl
    · exact Or.inr (Or.inl rfl)
    · next t =>
      rw [isWildcard, beq_iff_eq] at h
      exact Or.inr (Or.inr (by rw [h]))
    · exact absurd h (by decide)
  · rintro (rfl | rfl | rfl) <;> rfl

/-- A raw identifier is no name if it is empty or the wildcard. -/
theorem isNameless_ofRaw (range : SourceRange) (raw : Text) :
    (ofRaw range raw).isNameless = decide (raw = [] ∨ raw = [underscore]) := by
  have hparts : (ofRaw range raw).shownParts = Part.ofRaw raw := rfl
  rw [isNameless, hparts, Bool.eq_iff_iff, areNamelessParts_iff, decide_eq_true_iff]
  constructor
  · -- the text is what its parts are written as
    intro h
    rw [← Part.renderAll_ofRaw raw]
    rcases h with h | h | h
    · exact .inl (by rw [h]; rfl)
    · exact .inr (by rw [h]; rfl)
    · exact .inr (by rw [h]; rfl)
  · rintro (rfl | rfl)
    · exact .inl rfl
    · exact .inr (.inr rfl)

end Name

end MixfixNames
