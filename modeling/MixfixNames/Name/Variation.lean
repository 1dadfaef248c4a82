/-
# Variations of a Name

A name is varied in its last token: `x`, `x₁`, `x₂` and so on. The root of a name is what it is
printed as without the counter of that token. The wildcard and a name without a token cannot be
varied.

The search for a name that is not taken asks about the name itself and then about one variation
after the other. Nothing bounds it but the names that are taken: if every variation is, it has no
outcome. `MixfixNames.Proofs.Name.FreeName` shows that a list of names to avoid always ends it. A
scope gives names one after the other and never the same name twice: asked for a name that it has
given, it gives the first variation that it has not.
-/
import MixfixNames.Name.Edit
import MixfixNames.Name.Shape
import MixfixNames.Name.Token

namespace MixfixNames

namespace Name

/-! ## The next variation -/

/-- The next variation of the name; none for the wildcard and for a name without a token. -/
def next? (x : Name) : Option Name :=
  match x.identity with
  | .anonymous _ => none
  | .identifier parts =>
    if x.isNameless then none
    else (Part.editLast? Token.next parts).map (ofParts x.range)

/-- The variation of the name that comes `k` steps after it. -/
def variation? : Nat → Name → Option Name
  | 0, x => some x
  | k + 1, x => x.next?.bind (variation? k)

/-- The wildcard has no variations. -/
theorem next?_anonymous (range : SourceRange) (id : AnonymousId) :
    (anonymous range id).next? = none := rfl

/-- An identifier is varied in its last token, unless it stands for the wildcard. -/
theorem next?_ofParts (range : SourceRange) (parts : List Part) :
    (ofParts range parts).next? =
      if areNamelessParts parts then none
      else (Part.editLast? Token.next parts).map (ofParts range) := rfl

/-- A variation stands where the name stood. -/
theorem range_of_next? {x y : Name} (h : x.next? = some y) : y.range = x.range := by
  obtain ⟨identity, range⟩ := x
  cases identity with
  | anonymous id => simp [next?] at h
  | identifier parts =>
    simp only [next?] at h
    split at h
    · simp at h
    · obtain ⟨qs, -, rfl⟩ := Option.map_eq_some_iff.mp h
      rfl

/-! ## Roots -/

/-- The name as it is printed, without the counter of its last token. -/
def root (x : Name) : Text :=
  match Part.editLast? Token.root x.shownParts with
  | some parts => Part.renderAll parts
  | none => x.render

/-- Whether two names are variations of one root. -/
def shareRoot (x y : Name) : Bool := x.root == y.root

/-! ## The search for a free name -/

/-- The outcome of a search for a name that is not taken. -/
structure Search where
  /-- The first name that was not taken; none if the variations ran out. -/
  found : Option Name
  /-- The last name that was asked about. -/
  lastAsked : Name
  /-- How many names were asked about. -/
  calls : Nat
  deriving Repr

/-- Asks about `x`, as the name after `asked` others, and then about one variation after the
other, until one is not taken or there is none left. -/
def ask (taken : Nat → Name → Bool) (asked : Nat) (x : Name) : Option Search :=
  if taken asked x then
    match x.next? with
    | none => some ⟨none, x, asked + 1⟩
    | some y => y |>.ask taken (asked + 1)
  else some ⟨some x, x, asked + 1⟩
partial_fixpoint

/-- A name that is not taken is found at once. -/
theorem ask_of_not_taken {taken : Nat → Name → Bool} {asked : Nat} {x : Name}
    (h : taken asked x = false) : ask taken asked x = some ⟨some x, x, asked + 1⟩ := by
  rw [ask]
  simp [h]

/-- A taken name without variations ends the search. -/
theorem ask_of_next?_eq_none {taken : Nat → Name → Bool} {asked : Nat} {x : Name}
    (h : taken asked x = true) (hn : x.next? = none) :
    ask taken asked x = some ⟨none, x, asked + 1⟩ := by
  rw [ask]
  simp [h, hn]

/-- From a taken name the search goes on to the next variation. -/
theorem ask_of_next? {taken : Nat → Name → Bool} {asked : Nat} {x y : Name}
    (h : taken asked x = true) (hn : x.next? = some y) :
    ask taken asked x = ask taken (asked + 1) y := by
  rw [ask]
  simp [h, hn]

/-- Whether a search refuses a name: the first `refusals` names whatever they are, and the names
in `avoid`. -/
def refuses (avoid : List Name) (refusals asked : Nat) (x : Name) : Bool :=
  asked < refusals || avoid.contains x

/-- The search that refuses the names in `avoid` and, whatever they are, the first `refusals`
names that it asks about. -/
def search (avoid : List Name) (refusals : Nat) (x : Name) : Search :=
  (ask (refuses avoid refusals) 0 x).getD ⟨none, x, 0⟩

/-- The first variation of `x`, from `x` itself on, that is not among the names to avoid. -/
def firstFree? (avoid : List Name) (x : Name) : Option Name := (search avoid 0 x).found

/-- A name that is not to be avoided is free. -/
theorem firstFree?_of_not_contains {avoid : List Name} {x : Name}
    (h : avoid.contains x = false) : firstFree? avoid x = some x := by
  have hr : refuses avoid 0 0 x = false := by simp [refuses, h]
  rw [firstFree?, search, ask_of_not_taken hr]
  rfl

end Name

/-! ## Naming a scope -/

/-- The names that a scope has given so far, the last one first. -/
structure Scope where
  /-- The names given. -/
  names : List Name
  deriving Repr

namespace Scope

/-- A scope that has given no name yet. -/
def empty : Scope := ⟨[]⟩

/-- The first variation of `x` that the scope has not given, and the scope with it. -/
def give (s : Scope) (x : Name) : Option Name × Scope :=
  match Name.firstFree? s.names x with
  | some y => (some y, ⟨y :: s.names⟩)
  | none => (none, s)

/-- The names that a scope gives for a sequence of names, and the scope behind them. -/
def giveAll (s : Scope) : List Name → List (Option Name) × Scope
  | [] => ([], s)
  | x :: xs =>
    let later := (s.give x).2.giveAll xs
    ((s.give x).1 :: later.1, later.2)

/-- A scope answers every request. -/
theorem length_giveAll (s : Scope) (xs : List Name) : (s.giveAll xs).1.length = xs.length := by
  induction xs generalizing s with
  | nil => rfl
  | cons x xs ih => simp [giveAll, ih]

end Scope

end MixfixNames
