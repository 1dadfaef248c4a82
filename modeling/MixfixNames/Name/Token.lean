/-
# Variations of a Token

The end of a token may count: primes as in `f''`, digits as in `x12`, or subscript digits as in
`x₁₂`. A counter in primes goes on for ever, one in digits ends at the greatest machine word. A
token that counts is its root followed by a counter, and its next variation has the same root and
the next counter. A token that does not count, or whose counter is at its end, gets a subscript
one.
-/
import MixfixNames.Sequence
import MixfixNames.Text.Basic

namespace MixfixNames

/-! ## Counters -/

/-- A counter at the end of a token. -/
inductive Counter where
  /-- A number of primes. -/
  | primes (n : Nat)
  /-- A number in digits. -/
  | index (n : Nat)
  /-- A number in subscript digits. -/
  | subscript (n : Nat)
  deriving DecidableEq, Repr

namespace Counter

/-! ### Alphabets -/

/-- The character that counts in unary. -/
def prime : Char := Char.ofNat 0x27

/-- Whether the character is a prime. -/
def isPrime (c : Char) : Bool := c == prime

/-- The code point of the subscript zero; the other subscript digits follow it. -/
def subscriptZero : Nat := 0x2080

/-- Whether the character is a subscript digit. -/
def isSubscript (c : Char) : Bool :=
  subscriptZero ≤ c.toNat && c.toNat < subscriptZero + 10

/-- The subscript digit of a plain digit. -/
def lower (c : Char) : Char := Char.ofNat (subscriptZero + (c.toNat - 48))

/-- The plain digit of a subscript digit. -/
def raise (c : Char) : Char := Char.ofNat (48 + (c.toNat - subscriptZero))

/-- The number that plain digits denote. -/
def value (digits : Text) : Nat := Nat.ofDigitChars 10 digits 0

/-- The number that subscript digits denote. -/
def subscriptValue (digits : Text) : Nat := value (digits.map raise)

/-! ### Counters as text -/

/-- The counter as it is written at the end of a token, without leading zeros. -/
def render : Counter → Text
  | primes n => List.replicate n prime
  | index n => Text.decimal n
  | subscript n => (Text.decimal n).map lower

/-- The counter after this one; a number does not grow beyond the greatest machine word. -/
def next? : Counter → Option Counter
  | primes n => some (primes (n + 1))
  | index n => if n < wordMax then some (index (n + 1)) else none
  | subscript n => if n < wordMax then some (subscript (n + 1)) else none

/-- The value of a numeral is the number. -/
theorem value_decimal (n : Nat) : value (Text.decimal n) = n :=
  Nat.ofDigitChars_toDigits (by decide) (by decide)

end Counter

/-! ## Tokens -/

namespace Token

open Sequence

/-- A token as its root and its counter. Primes count first, then digits, then subscript digits;
digits count only if their number fits a machine word. -/
def split (s : Text) : Text × Option Counter :=
  let primes := trailing Counter.isPrime s
  let digits := trailing Char.isDigit s
  let subscripts := trailing Counter.isSubscript s
  if primes ≠ [] then
    (beforeTrailing Counter.isPrime s, some (.primes primes.length))
  else if digits ≠ [] ∧ Counter.value digits ≤ wordMax then
    (beforeTrailing Char.isDigit s, some (.index (Counter.value digits)))
  else if subscripts ≠ [] ∧ Counter.subscriptValue subscripts ≤ wordMax then
    (beforeTrailing Counter.isSubscript s,
      some (.subscript (Counter.subscriptValue subscripts)))
  else
    (s, none)

/-- A token without its counter. -/
def root (s : Text) : Text := (split s).1

/-- The next variation of a token. -/
def next (s : Text) : Text :=
  match (split s).2.bind Counter.next? with
  | some counter => root s ++ counter.render
  | none => s ++ (Counter.subscript 1).render

/-- The variation of a token that comes `k` steps after it. -/
def variation : Nat → Text → Text
  | 0, s => s
  | k + 1, s => variation k (next s)

/-- A counter that can count on keeps the root of its token. -/
theorem next_of_next? {s : Text} {c d : Counter} (hc : (split s).2 = some c)
    (hd : c.next? = some d) : next s = root s ++ d.render := by
  simp [next, hc, hd]

/-- A token without a counter gets one. -/
theorem next_of_eq_none {s : Text} (h : (split s).2 = none) :
    next s = s ++ (Counter.subscript 1).render := by
  simp [next, h]

/-- The variations of a token go on from its next one. -/
theorem variation_succ (k : Nat) (s : Text) : variation (k + 1) s = variation k (next s) := rfl

end Token

end MixfixNames
