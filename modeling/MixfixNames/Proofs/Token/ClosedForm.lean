/-
# Closed Forms of Variations

What a token has become after any number of steps is told by how the token ends. Primes are counted
on for ever, digits and subscript digits behind the same root as long as their number fits a machine
word. A token that ends in neither, or in digits that cannot be counted on, becomes the root of a
counter in subscript digits, and subscript digits that cannot be counted on get one more at each
step. The main statement, `closedForm`, says so for every token, and that no number that is counted
on overflows on the way.
-/
import MixfixNames.Proofs.Token.Growth

namespace MixfixNames

namespace Counter

/-! ## Numerals -/

/-- Numerals of positive numbers have no leading zeros. -/
theorem head?_decimal_ne_zero {n : ℕ} (h : 0 < n) : (Text.decimal n).head? ≠ some '0' := by
  intro hzero
  obtain ⟨d, hd⟩ := List.head?_eq_some_iff.mp hzero
  have hdigits : ∀ c ∈ d, c.isDigit = true := by
    intro c hc
    refine isDigit_of_mem_decimal (n := n) ?_
    rw [hd]
    exact List.mem_cons_of_mem _ hc
  have hvalue : value d = n := by
    rw [← value_decimal n, hd]
    rfl
  -- the numeral of `n` would be longer than one that denotes `n`
  have hne : d ≠ [] := by
    rintro rfl
    exact absurd hvalue h.ne
  have hlength := length_decimal_value_le hne hdigits
  rw [hvalue, hd, List.length_cons] at hlength
  exact Nat.not_succ_le_self _ hlength

/-! ## Counting on -/

/-- The counter that comes `k` steps after this one. -/
def plus (k : ℕ) : Counter → Counter
  | primes n => primes (n + k)
  | index n => index (n + k)
  | subscript n => subscript (n + k)

/-- The counter can count on `k` times. -/
def HasRoom (k : ℕ) : Counter → Prop
  | primes _ => True
  | index n => n + k ≤ wordMax
  | subscript n => n + k ≤ wordMax

/-- What can count on `k + 1` times can do so `k` times. -/
theorem HasRoom.of_succ {c : Counter} {k : ℕ} (h : c.HasRoom (k + 1)) : c.HasRoom k := by
  cases c with
  | primes n => trivial
  | index n => exact Nat.le_of_succ_le h
  | subscript n => exact Nat.le_of_succ_le h

/-- As long as there is room the next counter is one step further. -/
theorem next?_plus {c : Counter} {k : ℕ} (h : c.HasRoom (k + 1)) :
    (c.plus k).next? = some (c.plus (k + 1)) := by
  cases c with
  | primes n => rfl
  | index n =>
    have hlt : n + k < wordMax := h
    rw [plus, next?, if_pos hlt]
    rfl
  | subscript n =>
    have hlt : n + k < wordMax := h
    rw [plus, next?, if_pos hlt]
    rfl

/-- The greatest number that a counter of this kind can have at the end of a text of the given
length: there are no more primes than characters, and a numeral fits a machine word. -/
def limit (length : ℕ) : Counter → ℕ
  | primes _ => length
  | index _ => wordMax
  | subscript _ => wordMax

end Counter

namespace Token

open Sequence Counter

/-! ## Runs at the end -/

/-- `d` is the longest run of characters that pass at the end of `r ++ d`, and there is one. -/
structure EndsIn (pass : Char → Bool) (r d : Text) : Prop where
  /-- The run is not empty. -/
  ne_nil : d ≠ []
  /-- All its characters pass. -/
  forall_mem : ∀ c ∈ d, pass c = true
  /-- The character before it does not. -/
  of_getLast? : ∀ c ∈ r.getLast?, pass c = false

/-- The longest run does not go on before it. -/
theorem EndsIn.rtakeWhile_eq_nil {pass : Char → Bool} {r d : Text} (h : EndsIn pass r d) :
    r.rtakeWhile pass = [] :=
  rtakeWhile_eq_nil_iff_getLast?.mpr h.of_getLast?

/-- The token has no counter that counts on and does not end in subscript digits: it ends in no
character that counts, or in digits of the greatest machine word or a greater number. -/
def StartsAfresh (s : Text) : Prop :=
  (∀ c ∈ s.getLast?, isCounting c = false) ∨
    ∃ r d, s = r ++ d ∧ EndsIn Char.isDigit r d ∧ wordMax ≤ value d

/-- A token that starts afresh gets its first counter and becomes the root of it. -/
theorem split_next_of_startsAfresh {s : Text} (h : StartsAfresh s) :
    split (next s) = (s, some (.subscript 1)) ∧ next s = s ++ first := by
  have hboth : (split s).2.bind Counter.next? = none ∧ s.rtakeWhile isSubscript = [] := by
    rcases h with h | ⟨r, d, rfl, hd, hv⟩
    · have hnot : ∀ c ∈ s.getLast?,
          isPrime c = false ∧ c.isDigit = false ∧ isSubscript c = false := by
        intro c hc
        simpa [isCounting, and_assoc] using h c hc
      have hp := rtakeWhile_eq_nil_iff_getLast?.mpr fun c hc => (hnot c hc).1
      have hd := rtakeWhile_eq_nil_iff_getLast?.mpr fun c hc => (hnot c hc).2.1
      have hs := rtakeWhile_eq_nil_iff_getLast?.mpr fun c hc => (hnot c hc).2.2
      exact ⟨by simp [split_of_plain hp hd hs], hs⟩
    · exact ⟨bind_next?_append_digits hd.rtakeWhile_eq_nil hd.ne_nil hd.forall_mem hv,
        rtakeWhile_append_of_forall_not hd.ne_nil
          (fun c hc => isSubscript_of_isDigit (hd.forall_mem c hc)) r⟩
  exact ⟨split_next_of_bind_eq_none hboth.1 hboth.2, next_of_bind_eq_none hboth.1⟩

/-! ## Many steps -/

section Counting

variable {s r : Text} {c : Counter} {k : ℕ} (hs : split s = (r, some c)) (hk : c.HasRoom k)

include hs hk

/-- As long as the counter has room, the root stays. -/
theorem split_variation : split (variation k s) = (r, some (c.plus k)) := by
  induction k with
  | zero =>
    rw [variation, hs]
    cases c <;> rfl
  | succ k ih =>
    have hb := ih hk.of_succ
    have hd := next?_plus hk
    rw [variation_succ_eq_next]
    cases step (variation k s) with
    | counts hs' hd' hn hb' =>
      obtain ⟨rfl, hc⟩ := Prod.mk.inj (hb.symm.trans hs')
      obtain rfl := Option.some.inj hc
      rw [hb', ← hd', hd]
    | starts hs' hn hb' => simp [hb, hd] at hs'
    | lengthens hs' hn hb' => simp [hb, hd] at hs'

/-- So the root of every variation is the root of the token. -/
theorem root_variation : root (variation k s) = r := by
  rw [root, split_variation hs hk]

/-- After a step the counter is written as counters are. -/
theorem variation_eq_append_render (hpos : 1 ≤ k) :
    variation k s = r ++ (c.plus k).render := by
  obtain ⟨j, rfl⟩ := Nat.exists_eq_add_of_le' hpos
  rw [variation_succ_eq_next, next_of_split (split_variation hs hk.of_succ) (next?_plus hk)]

end Counting

/-! ## The forms -/

/-- Primes go on for ever. -/
theorem variation_primes {r : Text} (hr : r.getLast? ≠ some prime) {n : ℕ} (hn : 1 ≤ n) (k : ℕ) :
    variation k (r ++ List.replicate n prime) = r ++ List.replicate (n + k) prime ∧
      root (variation k (r ++ List.replicate n prime)) = r := by
  obtain ⟨m, rfl⟩ := Nat.exists_eq_add_of_le' hn
  have hnot : ∀ c ∈ r.getLast?, isPrime c = false := by
    intro c hc
    rw [Bool.eq_false_iff, ne_eq, isPrime_iff]
    rintro rfl
    exact hr hc
  have hs := split_append_primes (rtakeWhile_eq_nil_iff_getLast?.mpr hnot) m
  refine ⟨?_, root_variation hs trivial⟩
  rcases Nat.eq_zero_or_pos k with rfl | hpos
  · rfl
  · exact variation_eq_append_render hs trivial hpos

/-- Digits count on up to the greatest word, from the first step on without leading zeros. -/
theorem variation_digits {r d : Text} (hd : EndsIn Char.isDigit r d) {k : ℕ}
    (hk : value d + k ≤ wordMax) :
    root (variation k (r ++ d)) = r ∧
      (1 ≤ k → variation k (r ++ d) = r ++ Text.decimal (value d + k)) := by
  have hs := split_append_digits hd.rtakeWhile_eq_nil hd.ne_nil hd.forall_mem
  rw [if_pos (Nat.le_of_add_right_le hk)] at hs
  exact ⟨root_variation hs hk, variation_eq_append_render hs hk⟩

theorem variation_subscripts {r d : Text} (hd : EndsIn isSubscript r d) {k : ℕ}
    (hk : subscriptValue d + k ≤ wordMax) :
    root (variation k (r ++ d)) = r ∧
      (1 ≤ k → variation k (r ++ d) = r ++ (Text.decimal (subscriptValue d + k)).map lower) := by
  have hs := split_append_subscripts hd.rtakeWhile_eq_nil hd.ne_nil hd.forall_mem
  rw [if_pos (Nat.le_of_add_right_le hk)] at hs
  exact ⟨root_variation hs hk, variation_eq_append_render hs hk⟩

/-- A token that starts afresh is the root of a counter that starts at one. -/
theorem variation_of_startsAfresh {s : Text} (h : StartsAfresh s) {k : ℕ} (hpos : 1 ≤ k)
    (hk : k ≤ wordMax) :
    variation k s = s ++ (Text.decimal k).map lower ∧ root (variation k s) = s := by
  obtain ⟨hs, hn⟩ := split_next_of_startsAfresh h
  -- the first step makes the counter, the others count on from one
  obtain ⟨j, rfl⟩ := Nat.exists_eq_add_of_le hpos
  rw [Nat.add_comm 1 j, variation_succ, Nat.add_comm j 1]
  refine ⟨?_, root_variation hs hk⟩
  rcases Nat.eq_zero_or_pos j with rfl | hj
  · exact hn
  · exact variation_eq_append_render hs hk hj

/-- Subscript digits beyond the greatest word get one digit more in every step. -/
theorem variation_of_full_subscripts {r d : Text} (hd : EndsIn isSubscript r d)
    (hv : wordMax ≤ subscriptValue d) (k : ℕ) :
    variation k (r ++ d) = r ++ d ++ List.replicate k (lower '1') := by
  induction k generalizing d with
  | zero => rw [List.replicate_zero, List.append_nil, variation]
  | succ k ih =>
    -- with one more subscript digit the run is still one that cannot be counted on
    have hnext : next (r ++ d) = r ++ (d ++ first) := by
      rw [← List.append_assoc]
      exact next_of_bind_eq_none
        (bind_next?_append_subscripts hd.rtakeWhile_eq_nil hd.ne_nil hd.forall_mem hv)
    have hone : EndsIn isSubscript r (d ++ first) :=
      ⟨by simp [hd.ne_nil], forall_isSubscript_append_first hd.forall_mem, hd.of_getLast?⟩
    have hvone : wordMax ≤ subscriptValue (d ++ first) := by
      rw [subscriptValue_append_first]
      omega
    rw [variation_succ, hnext, ih hone hvone, first_eq, List.replicate_succ]
    simp

/-- No number that is reached by counting on is beyond the limit of its counter. -/
theorem number_le_limit {s : Text} {c d : Counter} (hs : (split s).2 = some c)
    (hd : c.next? = some d) : d.number ≤ d.limit (next s).length := by
  have hn := next_of_next? hs hd
  obtain ⟨n, rfl, rfl⟩ | ⟨n, hlt, rfl, rfl⟩ | ⟨n, hlt, rfl, rfl⟩ := cases_of_next? hd
  · rw [hn, List.length_append, render, List.length_replicate]
    exact Nat.le_add_left _ _
  · exact hlt
  · exact hlt

/-- The closed forms of the variations of a token, by how it ends. -/
structure HasClosedForm (s : Text) : Prop where
  /-- Primes are counted on for ever. -/
  primes : ∀ r n, s = r ++ List.replicate n prime → 1 ≤ n → r.getLast? ≠ some prime → ∀ k,
    variation k s = r ++ List.replicate (n + k) prime ∧ root (variation k s) = r
  /-- Digits are counted on as long as their number fits, and written without leading zeros. -/
  digits : ∀ r d, s = r ++ d → EndsIn Char.isDigit r d → ∀ k, value d + k ≤ wordMax →
    root (variation k s) = r ∧ (1 ≤ k → variation k s = r ++ Text.decimal (value d + k) ∧
      (Text.decimal (value d + k)).head? ≠ some '0')
  /-- Subscript digits are counted on as long as their number fits. -/
  subscripts : ∀ r d, s = r ++ d → EndsIn isSubscript r d → ∀ k, subscriptValue d + k ≤ wordMax →
    root (variation k s) = r ∧
      (1 ≤ k → variation k s = r ++ (Text.decimal (subscriptValue d + k)).map lower)
  /-- The other tokens that do not end in subscript digits start to count in them. -/
  starts : StartsAfresh s → ∀ k, 1 ≤ k → k ≤ wordMax →
    variation k s = s ++ (Text.decimal k).map lower ∧ root (variation k s) = s
  /-- Subscript digits that do not count on become more. -/
  lengthens : ∀ r d, s = r ++ d → EndsIn isSubscript r d → wordMax ≤ subscriptValue d → ∀ k,
    variation k s = s ++ List.replicate k (lower '1')
  /-- Numbers grow by one and stay within the limit. -/
  number_eq_and_le : ∀ k c d, (split (variation k s)).2 = some c → c.next? = some d →
    d.number = c.number + 1 ∧ d.number ≤ d.limit (variation (k + 1) s).length

/-- Every token has variations of these closed forms, and the subscript digits in them are the
characters that their code points are computed as. -/
theorem closedForm (s : Text) :
    HasClosedForm s ∧
      ∀ c : Char, c.isDigit = true → (lower c).toNat = subscriptZero + (c.toNat - 48) := by
  refine ⟨⟨?_, ?_, ?_, ?_, ?_, ?_⟩, fun c => toNat_lower⟩
  · rintro r n rfl hn hr k
    exact variation_primes hr hn k
  · rintro r d rfl hd k hk
    obtain ⟨hroot, hform⟩ := variation_digits hd hk
    exact ⟨hroot, fun hpos => ⟨hform hpos, head?_decimal_ne_zero (by omega)⟩⟩
  · rintro r d rfl hd k hk
    exact variation_subscripts hd hk
  · exact fun h k hpos hk => variation_of_startsAfresh h hpos hk
  · rintro r d rfl hd hv k
    exact variation_of_full_subscripts hd hv k
  · intro k c d hs hd
    rw [variation_succ_eq_next]
    exact ⟨number_of_next? hd, number_le_limit hs hd⟩

/-- Leading zeros go with the first step, and a full counter of digits is followed by a new one. -/
example : variation 1 "x009".toList = "x10".toList ∧
    variation 2 "x18446744073709551614".toList = "x18446744073709551615₁".toList := by decide

end Token

end MixfixNames
