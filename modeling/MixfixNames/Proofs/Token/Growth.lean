/-
# Variations of Tokens Grow

What one step of variation does to a token, and why the steps never lead back. A step may shorten
a token, as from `x009` to `x10`, so length alone does not grow; but the length of the token with
its counter written without leading zeros never falls, and where it stays the counter goes up. The
main statement, `variation_injective`, is that no token is a variation of another one twice.
-/
import Mathlib.Algebra.Group.Nat.Defs
import Mathlib.Data.Prod.Lex
import Mathlib.Order.Monotone.Basic
import MixfixNames.Proofs.Token.Ending

namespace MixfixNames

namespace Counter

/-! ## The length of numerals -/

/-- A numeral is below the power of ten of its length. -/
theorem value_lt_pow {d : Text} (hd : ∀ c ∈ d, c.isDigit = true) : value d < 10 ^ d.length := by
  induction d with
  | nil => decide
  | cons c d ih =>
    have hlt := ih fun a ha => hd a (List.mem_cons_of_mem c ha)
    have hc := (Char.isDigit_iff_toNat.mp (hd c List.mem_cons_self)).2
    have hv : value (c :: d) = 10 ^ d.length * (c.toNat - 48) + value d := by
      rw [value, Nat.ofDigitChars_cons, Nat.ofDigitChars_eq_ofDigitChars_zero]
      simp [value]
    have hle : 10 ^ d.length * (c.toNat - 48) ≤ 10 ^ d.length * 9 := by
      apply Nat.mul_le_mul_left
      simp only [Char.reduceToNat] at hc
      omega
    rw [hv, List.length_cons, Nat.pow_succ]
    omega

/-- The length of a numeral is bounded by powers of ten. -/
theorem length_decimal_le_iff {n k : Nat} (hk : 0 < k) :
    (Text.decimal n).length ≤ k ↔ n < 10 ^ k := by
  rw [Text.decimal]
  exact Nat.length_toDigits_le_iff (by decide) hk

/-- Leading zeros lengthen a numeral. -/
theorem length_decimal_value_le {d : Text} (hne : d ≠ []) (hd : ∀ c ∈ d, c.isDigit = true) :
    (Text.decimal (value d)).length ≤ d.length :=
  (length_decimal_le_iff (List.length_pos_iff.mpr hne)).mpr (value_lt_pow hd)

/-- Greater numbers have no shorter numerals. -/
theorem length_decimal_le {m n : Nat} (h : m ≤ n) :
    (Text.decimal m).length ≤ (Text.decimal n).length := by
  have hk : 0 < (Text.decimal n).length := List.length_pos_iff.mpr (decimal_ne_nil n)
  have hn : n < 10 ^ (Text.decimal n).length := (length_decimal_le_iff hk).mp le_rfl
  exact (length_decimal_le_iff hk).mpr (lt_of_le_of_lt h hn)

/-- The plain digit of a subscript digit is a digit. -/
theorem isDigit_raise {c : Char} (h : isSubscript c = true) : (raise c).isDigit = true := by
  obtain ⟨h1, h2⟩ := isSubscript_iff.mp h
  have hr : (raise c).toNat = 48 + (c.toNat - subscriptZero) :=
    Text.toNat_ofNat (Or.inl (by omega))
  rw [Char.isDigit_iff_toNat, hr]
  simp only [Char.reduceToNat]
  omega

/-- No subscript digits are shorter than the numeral of their number. -/
theorem length_decimal_subscriptValue_le {d : Text} (hne : d ≠ [])
    (hd : ∀ c ∈ d, isSubscript c = true) :
    (Text.decimal (subscriptValue d)).length ≤ d.length := by
  have hr : ∀ c ∈ d.map raise, c.isDigit = true := by
    intro c hc
    obtain ⟨a, ha, rfl⟩ := List.mem_map.mp hc
    exact isDigit_raise (hd a ha)
  have hl := length_decimal_value_le (by simpa using hne) hr
  rwa [List.length_map] at hl

/-! ## Counting on -/

/-- The number that a counter has reached. -/
def number : Counter → Nat
  | primes n => n
  | index n => n
  | subscript n => n

/-- What counting on does to each kind of counter. -/
theorem cases_of_next? {c d : Counter} (h : c.next? = some d) :
    (∃ n, c = primes n ∧ d = primes (n + 1)) ∨
      (∃ n < wordMax, c = index n ∧ d = index (n + 1)) ∨
      ∃ n < wordMax, c = subscript n ∧ d = subscript (n + 1) := by
  cases c with
  | primes n =>
    obtain rfl : Counter.primes (n + 1) = d := by simpa [next?] using h
    exact .inl ⟨n, rfl, rfl⟩
  | index n =>
    obtain ⟨hn, rfl⟩ : n < wordMax ∧ Counter.index (n + 1) = d := by simpa [next?] using h
    exact .inr (.inl ⟨n, hn, rfl, rfl⟩)
  | subscript n =>
    obtain ⟨hn, rfl⟩ : n < wordMax ∧ Counter.subscript (n + 1) = d := by simpa [next?] using h
    exact .inr (.inr ⟨n, hn, rfl, rfl⟩)

/-- Counting on adds one. -/
theorem number_of_next? {c d : Counter} (h : c.next? = some d) : d.number = c.number + 1 := by
  obtain ⟨n, rfl, rfl⟩ | ⟨n, -, rfl, rfl⟩ | ⟨n, -, rfl, rfl⟩ := cases_of_next? h <;> rfl

/-- A counter that counts on has a greater number and no shorter text. -/
theorem grows_of_next? {c d : Counter} (h : c.next? = some d) :
    c.number < d.number ∧ c.render.length ≤ d.render.length := by
  refine ⟨number_of_next? h ▸ Nat.lt_succ_self c.number, ?_⟩
  obtain ⟨n, rfl, rfl⟩ | ⟨n, -, rfl, rfl⟩ | ⟨n, -, rfl, rfl⟩ := cases_of_next? h
  · simp [render]
  · exact length_decimal_le (Nat.le_succ n)
  · simp only [render, List.length_map]
    exact length_decimal_le (Nat.le_succ n)

/-- The counter that a token gets which has none that counts on. -/
def first : Text := (Counter.subscript 1).render

theorem first_eq : first = [lower '1'] := rfl

/-- The first counter behind subscript digits makes up a numeral with them. -/
theorem subscriptValue_append_first (d : Text) :
    subscriptValue (d ++ first) = 10 * subscriptValue d + 1 := by
  rw [subscriptValue, List.map_append, value, Nat.ofDigitChars_append]
  rfl

/-- The first counter behind subscript digits goes on with them. -/
theorem forall_isSubscript_append_first {d : Text} (hd : ∀ c ∈ d, isSubscript c = true) :
    ∀ c ∈ d ++ first, isSubscript c = true := by
  intro c hc
  rcases List.mem_append.mp hc with hc | hc
  · exact hd c hc
  · rw [first_eq, List.mem_singleton] at hc
    rw [hc]
    decide

end Counter

namespace Token

open Sequence Counter

/-! ## One step -/

/-- What a step from `s` to its next variation does. -/
inductive Step (s : Text) : Prop where
  /-- The counter counts on behind the same root. -/
  | counts {r : Text} {c d : Counter} (hs : split s = (r, some c)) (hd : c.next? = some d)
    (hn : next s = r ++ d.render) (hb : split (next s) = (r, some d))
  /-- The whole token becomes the root of a new counter. -/
  | starts (hs : (split s).2.bind Counter.next? = none) (hn : next s = s ++ first)
    (hb : split (next s) = (s, some (.subscript 1)))
  /-- The subscript digits of the token are too many to count, and become one more. -/
  | lengthens (hs : (split s).2.bind Counter.next? = none) (hn : next s = s ++ first)
    (hb : split (next s) = (next s, none))

/-- Digits without leading zeros are split off again. -/
theorem split_append_decimal {r : Text} (hr : r.rtakeWhile Char.isDigit = []) {n : Nat}
    (hn : n ≤ wordMax) : split (r ++ (Counter.index n).render) = (r, some (.index n)) := by
  rw [render, split_append_digits hr (decimal_ne_nil n) fun c => isDigit_of_mem_decimal,
    value_decimal, if_pos hn]

theorem split_append_lower_decimal {r : Text} (hr : r.rtakeWhile isSubscript = []) {n : Nat}
    (hn : n ≤ wordMax) : split (r ++ (Counter.subscript n).render) = (r, some (.subscript n)) := by
  have hne : (Text.decimal n).map lower ≠ [] := by simpa using decimal_ne_nil n
  rw [render, split_append_subscripts hr hne fun c => isSubscript_of_mem_lower_decimal,
    subscriptValue_lower_decimal, if_pos hn]

/-- A counter that counts on does so behind the same root. -/
theorem next_of_split {s r : Text} {c d : Counter} (hs : split s = (r, some c))
    (hd : c.next? = some d) : next s = r ++ d.render := by
  have hr : root s = r := by rw [root, hs]
  rw [next_of_next? (by rw [hs]) hd, hr]

/-- A token that does not count on gets the first counter. -/
theorem next_of_bind_eq_none {s : Text} (h : (split s).2.bind Counter.next? = none) :
    next s = s ++ first := by
  rw [next, h]
  rfl

/-- A token that does not end in subscript digits and cannot count on gets a counter that is split
off again. -/
theorem split_next_of_bind_eq_none {s : Text} (h : (split s).2.bind Counter.next? = none)
    (ht : s.rtakeWhile isSubscript = []) : split (next s) = (s, some (.subscript 1)) := by
  rw [next_of_bind_eq_none h]
  exact split_append_lower_decimal ht (by decide)

/-- Digits of the greatest machine word or a greater number do not count on. -/
theorem bind_next?_append_digits {r d : Text} (hr : r.rtakeWhile Char.isDigit = []) (hne : d ≠ [])
    (hd : ∀ c ∈ d, c.isDigit = true) (hv : wordMax ≤ value d) :
    (split (r ++ d)).2.bind Counter.next? = none := by
  rw [split_append_digits hr hne hd]
  split <;> simp [next?, hv]

/-- Nor do subscript digits. -/
theorem bind_next?_append_subscripts {r d : Text} (hr : r.rtakeWhile isSubscript = [])
    (hne : d ≠ []) (hd : ∀ c ∈ d, isSubscript c = true) (hv : wordMax ≤ subscriptValue d) :
    (split (r ++ d)).2.bind Counter.next? = none := by
  rw [split_append_subscripts hr hne hd]
  split <;> simp [next?, hv]

/-- Every step does one of these things. -/
theorem step (s : Text) : Step s := by
  cases ending s with
  | @primes r hr n =>
    have hs := split_append_primes hr n
    have hd : (Counter.primes (n + 1)).next? = some (.primes (n + 2)) := rfl
    have hn := next_of_split hs hd
    refine .counts hs hd hn ?_
    rw [hn]
    exact split_append_primes hr (n + 1)
  | @digits r d hr hne hd =>
    have ht := rtakeWhile_append_of_forall_not hne (fun c hc => isSubscript_of_isDigit (hd c hc)) r
    by_cases hv : value d < wordMax
    · have hs := split_append_digits hr hne hd
      rw [if_pos hv.le] at hs
      have hc : (Counter.index (value d)).next? = some (.index (value d + 1)) := by
        simp [next?, hv]
      have hn := next_of_split hs hc
      refine .counts hs hc hn ?_
      rw [hn]
      exact split_append_decimal hr hv
    · -- a full counter is kept as it is, and a new one of the other alphabet starts behind it
      have hf := bind_next?_append_digits hr hne hd (Nat.not_lt.mp hv)
      exact .starts hf (next_of_bind_eq_none hf) (split_next_of_bind_eq_none hf ht)
  | @subscripts r d hr hne hd =>
    by_cases hv : subscriptValue d < wordMax
    · have hs := split_append_subscripts hr hne hd
      rw [if_pos hv.le] at hs
      have hc : (Counter.subscript (subscriptValue d)).next? =
          some (.subscript (subscriptValue d + 1)) := by
        simp [next?, hv]
      have hn := next_of_split hs hc
      refine .counts hs hc hn ?_
      rw [hn]
      exact split_append_lower_decimal hr hv
    · have hf := bind_next?_append_subscripts hr hne hd (Nat.not_lt.mp hv)
      have hn := next_of_bind_eq_none hf
      -- one more subscript digit makes the number at least ten times as large
      refine .lengthens hf hn ?_
      rw [hn, List.append_assoc,
        split_append_subscripts hr (by simp [hne]) (forall_isSubscript_append_first hd),
        subscriptValue_append_first, if_neg (by omega)]
  | plain hp hd hs =>
    have hf : (split s).2.bind Counter.next? = none := by simp [split_of_plain hp hd hs]
    exact .starts hf (next_of_bind_eq_none hf) (split_next_of_bind_eq_none hf hs)

/-! ## The size of a token -/

/-- The size of a token: its length when its counter is written without leading zeros, and then
the number of the counter. -/
def size (s : Text) : ℕ ×ₗ ℕ :=
  match (split s).2 with
  | some c => toLex ((root s).length + c.render.length, c.number)
  | none => toLex ((root s).length, 0)

theorem size_of_split_some {s r : Text} {c : Counter} (h : split s = (r, some c)) :
    size s = toLex (r.length + c.render.length, c.number) := by
  rw [size, root, h]

theorem size_of_split_none {s r : Text} (h : split s = (r, none)) :
    size s = toLex (r.length, 0) := by
  rw [size, root, h]

/-- The length that counts is at most the length of the token. -/
theorem size_lt (s : Text) {n : ℕ} : size s < toLex (s.length + 1, n) := by
  rw [Prod.Lex.lt_iff]
  left
  cases ending s with
  | @primes r hr k =>
    rw [size_of_split_some (split_append_primes hr k)]
    simp [render]
  | @digits r d hr hne hd =>
    have hl := length_decimal_value_le hne hd
    have hs := split_append_digits hr hne hd
    split at hs
    · rw [size_of_split_some hs]
      simp only [ofLex_toLex, render, List.length_append]
      omega
    · rw [size_of_split_none hs]
      exact Nat.lt_succ_self _
  | @subscripts r d hr hne hd =>
    have hl := length_decimal_subscriptValue_le hne hd
    have hs := split_append_subscripts hr hne hd
    split at hs
    · rw [size_of_split_some hs]
      simp only [ofLex_toLex, render, List.length_append, List.length_map]
      omega
    · rw [size_of_split_none hs]
      exact Nat.lt_succ_self _
  | plain hp hd hs =>
    rw [size_of_split_none (split_of_plain hp hd hs)]
    exact Nat.lt_succ_self _

/-- Every step makes a token greater. -/
theorem size_lt_size_next (s : Text) : size s < size (next s) := by
  cases step s with
  | counts hs hd hn hb =>
    obtain ⟨hnum, hlen⟩ := grows_of_next? hd
    rw [size_of_split_some hs, size_of_split_some hb, Prod.Lex.lt_iff]
    simp only [ofLex_toLex]
    omega
  | starts hs hn hb =>
    -- the new counter is written behind the whole token, leading zeros and all
    rw [size_of_split_some hb]
    exact size_lt s
  | lengthens hs hn hb =>
    rw [size_of_split_none hb, hn, List.length_append]
    exact size_lt s

/-! ## Many steps -/

theorem variation_succ_eq_next (k : ℕ) (s : Text) :
    variation (k + 1) s = next (variation k s) := by
  induction k generalizing s with
  | zero => rfl
  | succ k ih => rw [variation_succ, ih, variation_succ]

/-- Later variations of a token are greater. -/
theorem size_variation_strictMono (s : Text) : StrictMono fun k => size (variation k s) := by
  apply strictMono_nat_of_lt_succ
  intro k
  rw [variation_succ_eq_next]
  exact size_lt_size_next (variation k s)

/-- The variations of a token are all different. -/
theorem variation_injective (s : Text) : Function.Injective fun k => variation k s := by
  intro i j h
  apply (size_variation_strictMono s).injective
  exact congrArg size h

end Token

end MixfixNames
