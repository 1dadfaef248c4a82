/-
# How Tokens End

Every token ends in primes, in digits, in subscript digits or in none of these, and the three
alphabets are disjoint. How a token is split follows from its ending alone: a root that does not
end in the same alphabet and a counter, unless the number is beyond the greatest machine word.
-/
import Mathlib.Data.List.DropRight
import MixfixNames.Name.Token

namespace MixfixNames

namespace Sequence

/-! ## Runs at the end -/

variable {α : Type} {p : α → Bool} {a : α} {s t : List α}

/-- There is no run of passing elements at the end exactly if the last element fails. -/
theorem rtakeWhile_eq_nil_iff_getLast? :
    s.rtakeWhile p = [] ↔ ∀ a ∈ s.getLast?, p a = false := by
  rw [List.rtakeWhile_eq_nil_iff]
  cases s using List.reverseRecOn <;> simp

/-- What stands before the run is the whole sequence exactly if there is no run. -/
theorem rdropWhile_eq_self_iff_rtakeWhile_eq_nil :
    s.rdropWhile p = s ↔ s.rtakeWhile p = [] :=
  List.rdropWhile_eq_self_iff.trans List.rtakeWhile_eq_nil_iff.symm

/-- What stands before the run has no run at its own end. -/
theorem rtakeWhile_rdropWhile (p : α → Bool) (s : List α) :
    (s.rdropWhile p).rtakeWhile p = [] :=
  List.rtakeWhile_eq_nil_iff.mpr (List.rdropWhile_last_not p s)

/-- Passing elements behind a sequence without a run are its run, and the sequence is what stands
before them. -/
theorem cut_append_of_forall (hs : s.rtakeWhile p = []) (ht : ∀ a ∈ t, p a = true) :
    (s ++ t).rtakeWhile p = t ∧ (s ++ t).rdropWhile p = s := by
  induction t using List.reverseRecOn with
  | nil =>
    rw [List.append_nil]
    exact ⟨hs, rdropWhile_eq_self_iff_rtakeWhile_eq_nil.mpr hs⟩
  | append_singleton t a ih =>
    obtain ⟨hrun, hrest⟩ := ih fun b hb => ht b (List.mem_append_left _ hb)
    have ha := ht a (List.mem_append_right _ (List.mem_singleton_self a))
    rw [← List.append_assoc, List.rtakeWhile_concat_pos p (s ++ t) a ha,
      List.rdropWhile_concat_pos p (s ++ t) a ha, hrun, hrest]
    exact ⟨rfl, rfl⟩

/-- Failing elements behind a sequence leave no run. -/
theorem rtakeWhile_append_of_forall_not (ht : t ≠ []) (h : ∀ a ∈ t, p a = false) (s : List α) :
    (s ++ t).rtakeWhile p = [] := by
  rw [← List.dropLast_concat_getLast ht, ← List.append_assoc]
  exact List.rtakeWhile_concat_neg p _ _ (Bool.eq_false_iff.mp (h _ (List.getLast_mem ht)))

/-- A failing first element stands before the run. -/
theorem rdropWhile_cons_of_neg (h : p a = false) (s : List α) :
    (a :: s).rdropWhile p = a :: s.rdropWhile p := by
  rw [List.rdropWhile, List.rdropWhile, List.reverse_cons, List.dropWhile_append]
  split
  · next hall => simp [List.isEmpty_iff.mp hall, h]
  · simp

/-- A failing first element does not belong to the run. -/
theorem rtakeWhile_cons_of_neg (h : p a = false) (s : List α) :
    (a :: s).rtakeWhile p = s.rtakeWhile p := by
  have hcut := List.rdropWhile_append_rtakeWhile (p := p) (l := a :: s)
  rw [rdropWhile_cons_of_neg h, List.cons_append, List.cons.injEq] at hcut
  exact List.append_cancel_left (hcut.2.trans List.rdropWhile_append_rtakeWhile.symm)

end Sequence

namespace Counter

/-! ## Alphabets -/

theorem isPrime_iff {c : Char} : isPrime c = true ↔ c = prime := by
  rw [isPrime, beq_iff_eq]

/-- The subscript digits are ten consecutive characters. -/
theorem isSubscript_iff {c : Char} :
    isSubscript c = true ↔ subscriptZero ≤ c.toNat ∧ c.toNat < subscriptZero + 10 := by
  rw [isSubscript, Bool.and_eq_true, decide_eq_true_eq, decide_eq_true_eq]

/-- A digit is no prime. -/
theorem isPrime_of_isDigit {c : Char} (h : c.isDigit = true) : isPrime c = false := by
  rw [Bool.eq_false_iff, ne_eq, isPrime_iff]
  rintro rfl
  exact absurd h (by decide)

theorem isPrime_of_isSubscript {c : Char} (h : isSubscript c = true) : isPrime c = false := by
  rw [Bool.eq_false_iff, ne_eq, isPrime_iff]
  rintro rfl
  exact absurd h (by decide)

theorem isDigit_of_isPrime {c : Char} (h : isPrime c = true) : c.isDigit = false := by
  rw [isPrime_iff.mp h]
  decide

theorem isSubscript_of_isPrime {c : Char} (h : isPrime c = true) : isSubscript c = false := by
  rw [isPrime_iff.mp h]
  decide

/-- A digit is no subscript digit. -/
theorem isSubscript_of_isDigit {c : Char} (h : c.isDigit = true) : isSubscript c = false := by
  rw [Bool.eq_false_iff, ne_eq, isSubscript_iff]
  have hd := Char.isDigit_iff_toNat.mp h
  simp only [Char.reduceToNat, subscriptZero] at hd ⊢
  omega

theorem isDigit_of_isSubscript {c : Char} (h : isSubscript c = true) : c.isDigit = false := by
  rw [Bool.eq_false_iff]
  intro hd
  rw [isSubscript_of_isDigit hd] at h
  exact absurd h (by decide)

/-- The code point of a subscript digit is the sum that it is computed as. -/
theorem toNat_lower {c : Char} (h : c.isDigit = true) :
    (lower c).toNat = subscriptZero + (c.toNat - 48) := by
  have hd := Char.isDigit_iff_toNat.mp h
  simp only [Char.reduceToNat] at hd
  refine Text.toNat_ofNat (Or.inl ?_)
  simp only [subscriptZero]
  omega

/-- The subscript digit of a digit is one, and it stands for that digit. -/
theorem isSubscript_lower {c : Char} (h : c.isDigit = true) :
    isSubscript (lower c) = true ∧ raise (lower c) = c := by
  have hd := Char.isDigit_iff_toNat.mp h
  simp only [Char.reduceToNat] at hd
  have hl := toNat_lower h
  constructor
  · rw [isSubscript_iff, hl]
    omega
  · rw [raise, hl, show 48 + (subscriptZero + (c.toNat - 48) - subscriptZero) = c.toNat by omega,
      Char.ofNat_toNat]

/-- Whether the character belongs to one of the alphabets. -/
def isCounting (c : Char) : Bool := isPrime c || c.isDigit || isSubscript c

/-! ## Numerals -/

/-- Numerals are made of digits. -/
theorem isDigit_of_mem_decimal {n : Nat} {c : Char} (h : c ∈ Text.decimal n) :
    c.isDigit = true :=
  Nat.isDigit_of_mem_toDigits (by decide) (by decide) h

/-- Every number has a digit. -/
theorem decimal_ne_nil (n : Nat) : Text.decimal n ≠ [] := by
  rw [Text.decimal]
  exact Nat.toDigits_ne_nil

/-- Lowered numerals are made of subscript digits. -/
theorem isSubscript_of_mem_lower_decimal {n : Nat} {c : Char}
    (h : c ∈ (Text.decimal n).map lower) : isSubscript c = true := by
  obtain ⟨d, hd, rfl⟩ := List.mem_map.mp h
  exact (isSubscript_lower (isDigit_of_mem_decimal hd)).1

/-- A lowered numeral denotes the number. -/
theorem subscriptValue_lower_decimal (n : Nat) :
    subscriptValue ((Text.decimal n).map lower) = n := by
  have h : ((Text.decimal n).map lower).map raise = Text.decimal n := by
    rw [List.map_map]
    conv => rhs; rw [← List.map_id (Text.decimal n)]
    apply List.map_congr_left
    intro c hc
    rw [Function.comp_apply, (isSubscript_lower (isDigit_of_mem_decimal hc)).2, id]
  rw [subscriptValue, h, value_decimal]

end Counter

namespace Token

open Sequence Counter

/-! ## Endings -/

/-- A token is split before the run at its end. -/
theorem split_eq (s : Text) :
    split s =
      if s.rtakeWhile isPrime ≠ [] then
        (s.rdropWhile isPrime, some (.primes (s.rtakeWhile isPrime).length))
      else if s.rtakeWhile Char.isDigit ≠ [] ∧ value (s.rtakeWhile Char.isDigit) ≤ wordMax then
        (s.rdropWhile Char.isDigit, some (.index (value (s.rtakeWhile Char.isDigit))))
      else if s.rtakeWhile isSubscript ≠ [] ∧
          subscriptValue (s.rtakeWhile isSubscript) ≤ wordMax then
        (s.rdropWhile isSubscript, some (.subscript (subscriptValue (s.rtakeWhile isSubscript))))
      else (s, none) := rfl

/-- How a token ends: in primes, digits or subscript digits behind a root that does not end so, or
in none of them. -/
inductive Ending : Text → Prop where
  | primes {r : Text} (hr : r.rtakeWhile isPrime = []) (n : Nat) :
    Ending (r ++ List.replicate (n + 1) prime)
  | digits {r d : Text} (hr : r.rtakeWhile Char.isDigit = []) (hne : d ≠ [])
    (hd : ∀ c ∈ d, c.isDigit = true) : Ending (r ++ d)
  | subscripts {r d : Text} (hr : r.rtakeWhile isSubscript = []) (hne : d ≠ [])
    (hd : ∀ c ∈ d, isSubscript c = true) : Ending (r ++ d)
  | plain {s : Text} (hp : s.rtakeWhile isPrime = []) (hd : s.rtakeWhile Char.isDigit = [])
    (hs : s.rtakeWhile isSubscript = []) : Ending s

/-- Every token ends in one of these ways. -/
theorem ending (s : Text) : Ending s := by
  by_cases hp : s.rtakeWhile isPrime = []
  · by_cases hd : s.rtakeWhile Char.isDigit = []
    · by_cases hs : s.rtakeWhile isSubscript = []
      · exact .plain hp hd hs
      · rw [← List.rdropWhile_append_rtakeWhile (p := isSubscript) (l := s)]
        exact .subscripts (rtakeWhile_rdropWhile isSubscript s) hs fun c => List.mem_rtakeWhile_imp
    · rw [← List.rdropWhile_append_rtakeWhile (p := Char.isDigit) (l := s)]
      exact .digits (rtakeWhile_rdropWhile Char.isDigit s) hd fun c => List.mem_rtakeWhile_imp
  · -- all primes are the same character, so their number says which ones they are
    obtain ⟨n, hn⟩ := Nat.exists_eq_succ_of_ne_zero (mt List.length_eq_zero_iff.mp hp)
    have hr : s.rtakeWhile isPrime = List.replicate (n + 1) prime :=
      List.eq_replicate_iff.mpr ⟨hn, fun c hc => isPrime_iff.mp (List.mem_rtakeWhile_imp hc)⟩
    rw [← List.rdropWhile_append_rtakeWhile (p := isPrime) (l := s), hr]
    exact .primes (rtakeWhile_rdropWhile isPrime s) n

/-- Primes are split off with their number. -/
theorem split_append_primes {r : Text} (hr : r.rtakeWhile isPrime = []) (n : Nat) :
    split (r ++ List.replicate (n + 1) prime) = (r, some (.primes (n + 1))) := by
  have hp : ∀ c ∈ List.replicate (n + 1) prime, isPrime c = true := fun c hc =>
    isPrime_iff.mpr (List.eq_of_mem_replicate hc)
  obtain ⟨ht, hb⟩ := cut_append_of_forall hr hp
  simp [split_eq, ht, hb]

/-- Digits are split off if their number fits a machine word. -/
theorem split_append_digits {r d : Text} (hr : r.rtakeWhile Char.isDigit = []) (hne : d ≠ [])
    (hd : ∀ c ∈ d, c.isDigit = true) :
    split (r ++ d) =
      if value d ≤ wordMax then (r, some (.index (value d))) else (r ++ d, none) := by
  have hp := rtakeWhile_append_of_forall_not hne (fun c hc => isPrime_of_isDigit (hd c hc)) r
  have hs := rtakeWhile_append_of_forall_not hne (fun c hc => isSubscript_of_isDigit (hd c hc)) r
  obtain ⟨ht, hb⟩ := cut_append_of_forall hr hd
  simp [split_eq, hp, hs, ht, hb, hne]

/-- Subscript digits are split off if their number fits a machine word. -/
theorem split_append_subscripts {r d : Text} (hr : r.rtakeWhile isSubscript = []) (hne : d ≠ [])
    (hd : ∀ c ∈ d, isSubscript c = true) :
    split (r ++ d) =
      if subscriptValue d ≤ wordMax then (r, some (.subscript (subscriptValue d)))
      else (r ++ d, none) := by
  have hp := rtakeWhile_append_of_forall_not hne (fun c hc => isPrime_of_isSubscript (hd c hc)) r
  have hi := rtakeWhile_append_of_forall_not hne (fun c hc => isDigit_of_isSubscript (hd c hc)) r
  obtain ⟨ht, hb⟩ := cut_append_of_forall hr hd
  simp [split_eq, hp, hi, ht, hb, hne]

/-- A token that ends in no alphabet has no counter. -/
theorem split_of_plain {s : Text} (hp : s.rtakeWhile isPrime = [])
    (hd : s.rtakeWhile Char.isDigit = []) (hs : s.rtakeWhile isSubscript = []) :
    split s = (s, none) := by
  simp [split_eq, hp, hd, hs]

end Token

end MixfixNames
