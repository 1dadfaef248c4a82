/-
# The Shape of a Mixfix Name

Where the holes of a name are decides which of its ends take arguments. This says nothing about
precedence or associativity. The main statements say when each fixity arises, that an operator is
open exactly if it is not nonfix, and that the shape depends on nothing but the holes.
-/
import MixfixNames.Name.Basic

namespace MixfixNames

/-- Which ends of a name take arguments. -/
inductive Fixity where
  /-- A token first and a hole last, as in `if_then_else_`. -/
  | prefixOp
  /-- A hole first and a token last, as in `_!`. -/
  | postfixOp
  /-- A hole at both ends, as in `_+_`; the lone hole too. -/
  | infixOp
  /-- A token at both ends, as in `[_]` or `foo`. -/
  | nonfix
  deriving DecidableEq, Repr

namespace Fixity

/-- The fixity of a sequence of parts with the given ends. -/
def ofEnds (first last : Part) : Fixity :=
  match first.isHole, last.isHole with
  | false, true => prefixOp
  | true, false => postfixOp
  | true, true => infixOp
  | false, false => nonfix

/-- The fixity of a sequence of parts; an empty sequence has none. -/
def of? (parts : List Part) : Option Fixity :=
  match parts.head?, parts.getLast? with
  | some first, some last => some (ofEnds first last)
  | _, _ => none

/-- The fixity as a word. -/
def word : Fixity → Text
  | prefixOp => "prefix".toList
  | postfixOp => "postfix".toList
  | infixOp => "infix".toList
  | nonfix => "nonfix".toList

/-- Only the empty sequence has no fixity. -/
theorem of?_eq_none_iff {parts : List Part} : of? parts = none ↔ parts = [] := by
  cases parts with
  | nil => simp [of?]
  | cons p ps => simp [of?, List.getLast?_cons]

end Fixity

namespace Part

/-- Whether a sequence of parts is an operator: it has more than one part. -/
def isOperator (parts : List Part) : Bool := 1 < parts.length

/-- Whether a sequence of parts is an operator with a hole at one of its ends. -/
def isOpen (parts : List Part) : Bool :=
  isOperator parts && (parts.head?.any isHole || parts.getLast?.any isHole)

/-- An operator is open exactly if one of its ends takes an argument. -/
theorem isOpen_iff {parts : List Part} :
    isOpen parts = true ↔ isOperator parts = true ∧ Fixity.of? parts ≠ some .nonfix := by
  cases parts with
  | nil => simp [isOpen, isOperator]
  | cons p ps =>
    cases hp : p.isHole <;> cases hl : ((p :: ps).getLast (by simp)).isHole <;>
      simp_all [isOpen, Fixity.of?, Fixity.ofEnds, List.getLast?_eq_some_getLast]

/-! ### The holes decide -/

section SameHoles

variable {ps qs : List Part} (h : ps.map isHole = qs.map isHole)

include h

/-- Which fixity a name has depends on where its holes are alone. -/
theorem of?_eq_of_map_isHole_eq : Fixity.of? ps = Fixity.of? qs := by
  have hhead := congrArg List.head? h
  have hlast := congrArg List.getLast? h
  rw [List.head?_map, List.head?_map] at hhead
  rw [List.getLast?_map, List.getLast?_map] at hlast
  cases ps with
  | nil =>
    obtain rfl := List.map_eq_nil_iff.mp h.symm
    rfl
  | cons p ps =>
    obtain ⟨q, qs, rfl, hp, hps⟩ := List.map_eq_cons_iff.mp h.symm
    simp_all [Fixity.of?, Fixity.ofEnds, List.getLast?_cons]

/-- So does the number of its holes. -/
theorem holeCount_eq_of_map_isHole_eq : holeCount ps = holeCount qs := by
  have hcount := congrArg (List.countP id) h
  rwa [List.countP_map, List.countP_map] at hcount

/-- So does whether it is an operator. -/
theorem isOperator_eq_of_map_isHole_eq : isOperator ps = isOperator qs := by
  have hlength := congrArg List.length h
  rw [List.length_map, List.length_map] at hlength
  rw [isOperator, isOperator, hlength]

/-- So does whether it is open. -/
theorem isOpen_eq_of_map_isHole_eq : isOpen ps = isOpen qs := by
  rw [Bool.eq_iff_iff, isOpen_iff, isOpen_iff, isOperator_eq_of_map_isHole_eq h,
    of?_eq_of_map_isHole_eq h]

end SameHoles

end Part

namespace Name

/-- The fixity of the name as it is printed. -/
def fixity? (x : Name) : Option Fixity := Fixity.of? x.shownParts

/-- Whether the name as it is printed is an operator. -/
def isOperator (x : Name) : Bool := Part.isOperator x.shownParts

/-- Whether the name as it is printed is an operator with an open end. -/
def isOpen (x : Name) : Bool := Part.isOpen x.shownParts

/-- The number of arguments that the name takes. -/
def holeCount (x : Name) : Nat := Part.holeCount x.shownParts

end Name

end MixfixNames
