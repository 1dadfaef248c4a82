/-
# Anonymous Identities

Every occurrence of the wildcard is a name of its own. A supply numbers them from 1 on; its counter
is a machine word that wraps around, and the number it hands out never exceeds the greatest word.
Supplies do not know of each other.
-/
import MixfixNames.Grouping

namespace MixfixNames

/-- The identity of an anonymous name. -/
structure AnonymousId where
  /-- The number of the identity, at least 1. -/
  number : Nat
  deriving DecidableEq, Repr

namespace AnonymousId

/-- Identities are ordered by number. -/
instance : Ord AnonymousId := ⟨fun a b => compare a.number b.number⟩

/-- An identity feeds its number. -/
instance : Feeds AnonymousId := ⟨fun id => [.number id.number]⟩

/-- The identity as text. -/
def render (id : AnonymousId) : Text := '#' :: Text.decimal id.number

end AnonymousId

/-! ## One supply -/

/-- A source of identities, which counts how many it has issued. -/
structure IdSupply where
  /-- The number of identities issued, modulo the size of a word. -/
  issued : UInt64
  deriving DecidableEq, Repr

namespace IdSupply

/-- A supply that has issued nothing yet. -/
def new : IdSupply := ⟨0⟩

/-- The next identity, and the supply behind it. -/
def fresh (s : IdSupply) : AnonymousId × IdSupply :=
  (⟨min (s.issued.toNat + 1) wordMax⟩, ⟨s.issued + 1⟩)

/-- The next `n` identities in order, and the supply behind them. -/
def freshList (s : IdSupply) : Nat → List AnonymousId × IdSupply
  | 0 => ([], s)
  | n + 1 =>
    let later := (s.fresh.2).freshList n
    (s.fresh.1 :: later.1, later.2)

/-- The supply as text. -/
def render (s : IdSupply) : Text :=
  "IdGenerator ".toList ++ '\x7b' :: (" issued: ".toList ++ Text.decimal s.issued.toNat ++
    [' ', '\x7d'])

/-- The first identity has number 1. -/
theorem number_fresh_new : new.fresh.1.number = 1 := rfl

/-- No identity has number 0. -/
theorem number_fresh_pos (s : IdSupply) : 0 < s.fresh.1.number := by
  simp only [fresh, wordMax]
  omega

/-- As many identities are made as are asked for. -/
theorem length_freshList (s : IdSupply) (n : Nat) : (s.freshList n).1.length = n := by
  induction n generalizing s with
  | zero => rfl
  | succ n ih => simp [freshList, ih]

end IdSupply

/-! ## Several supplies -/

/-- Supplies that are told apart by number. -/
structure Supplies where
  /-- The state of each supply. -/
  state : Nat → IdSupply

namespace Supplies

/-- Supplies none of which has issued anything. -/
def new : Supplies := ⟨fun _ => IdSupply.new⟩

/-- The supplies with the state of one of them replaced. -/
def set (all : Supplies) (k : Nat) (s : IdSupply) : Supplies :=
  ⟨fun j => if j = k then s else all.state j⟩

/-- The next identity of supply `k`. -/
def fresh (all : Supplies) (k : Nat) : AnonymousId × Supplies :=
  ((all.state k).fresh.1, all.set k (all.state k).fresh.2)

/-- The next `n` identities of supply `k`. -/
def freshList (all : Supplies) (k n : Nat) : List AnonymousId × Supplies :=
  (((all.state k).freshList n).1, all.set k ((all.state k).freshList n).2)

/-- The identities of a whole script, which names a supply for each call. -/
def run (all : Supplies) : List Nat → List AnonymousId
  | [] => []
  | k :: script => (all.fresh k).1 :: run (all.fresh k).2 script

/-- A call moves on the supply that it names. -/
theorem state_fresh_self (all : Supplies) (k : Nat) :
    (all.fresh k).2.state k = (all.state k).fresh.2 := by
  simp [fresh, set]

/-- A call leaves all other supplies alone. -/
theorem state_fresh_of_ne (all : Supplies) {j k : Nat} (h : j ≠ k) :
    (all.fresh k).2.state j = all.state j := by
  simp [fresh, set, h]

end Supplies

end MixfixNames
