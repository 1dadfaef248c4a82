/-
# Roots of Varied Tokens

A counter that counts on does so behind the same root, and a token without a counter becomes the
root of its first one. It is otherwise where a counter is full: the new counter that is started
behind it takes the full one, which the token did not have in its root before, into the root of the
variation, or makes up one long numeral with it that is no counter at all. The main statement,
`root_variation_eq_iff`, says that nothing but a full counter changes the root, and that a root once
changed never comes back.
-/
import MixfixNames.Proofs.Token.Growth

namespace MixfixNames.Token

open Sequence Counter

/-! ## Roots -/

/-- A token starts with its root. -/
theorem root_isPrefix (s : Text) : root s <+: s := by
  simp only [root, split_eq]
  split_ifs
  · exact List.rdropWhile_prefix _ s
  · exact List.rdropWhile_prefix _ s
  · exact List.rdropWhile_prefix _ s
  · exact List.prefix_rfl

/-- A token without a counter is its own root. -/
theorem root_eq_self_iff {s : Text} : root s = s ↔ (split s).2 = none := by
  simp only [root, split_eq]
  split_ifs with hp hd hs
  · exact iff_of_false (mt rdropWhile_eq_self_iff_rtakeWhile_eq_nil.mp hp) not_false
  · exact iff_of_false (mt rdropWhile_eq_self_iff_rtakeWhile_eq_nil.mp hd.1) not_false
  · exact iff_of_false (mt rdropWhile_eq_self_iff_rtakeWhile_eq_nil.mp hs.1) not_false
  · exact iff_of_true rfl rfl

/-- The first counter is split off again unless there are subscript digits in front of it. -/
theorem root_append_first_eq_iff {s : Text} :
    root (s ++ first) = s ↔ s.rtakeWhile isSubscript = [] := by
  constructor
  · intro h
    by_contra hne
    have hone := forall_isSubscript_append_first fun c => List.mem_rtakeWhile_imp (l := s)
    have hs := split_append_subscripts (rtakeWhile_rdropWhile isSubscript s)
      (List.append_ne_nil_of_left_ne_nil hne first) hone
    rw [← List.append_assoc, List.rdropWhile_append_rtakeWhile] at hs
    -- the root is too short if the digits are a counter, and too long if they are not
    rw [root, hs] at h
    split at h
    · exact hne (rdropWhile_eq_self_iff_rtakeWhile_eq_nil.mp h)
    · simp [first_eq] at h
  · intro h
    rw [root, first, split_append_lower_decimal h (by decide)]

/-! ## Full counters -/

/-- The token ends in a counter that is full: digits of the greatest machine word, or subscript
digits of that word or a greater number. -/
def IsFull (s : Text) : Prop :=
  value (s.rtakeWhile Char.isDigit) = wordMax ∨
    wordMax ≤ subscriptValue (s.rtakeWhile isSubscript)

instance : DecidablePred IsFull := fun _ => inferInstanceAs (Decidable (_ ∨ _))

/-- A counter is full if it does not count on, and so are subscript digits without a counter. -/
theorem isFull_iff {s : Text} :
    IsFull s ↔ (split s).2.bind Counter.next? = none ∧
      ((split s).2 = none → s.rtakeWhile isSubscript ≠ []) := by
  have hnone : value [] ≠ wordMax ∧ ¬ wordMax ≤ subscriptValue [] := by decide
  cases ending s with
  | @primes r hr n =>
    have hne : List.replicate (n + 1) prime ≠ [] := List.cons_ne_nil _ _
    have hp : ∀ c ∈ List.replicate (n + 1) prime, isPrime c = true := fun c hc =>
      isPrime_iff.mpr (List.eq_of_mem_replicate hc)
    have hd := rtakeWhile_append_of_forall_not hne (fun c hc => isDigit_of_isPrime (hp c hc)) r
    have hs := rtakeWhile_append_of_forall_not hne (fun c hc => isSubscript_of_isPrime (hp c hc)) r
    simp [IsFull, hd, hs, hnone, split_append_primes hr n, next?]
  | @digits r d hr hne hd =>
    have hs := rtakeWhile_append_of_forall_not hne (fun c hc => isSubscript_of_isDigit (hd c hc)) r
    have ht := (cut_append_of_forall hr hd).1
    rw [split_append_digits hr hne hd, IsFull, ht, hs]
    split
    · simp [hnone, next?]
      omega
    · simp [hnone]
      omega
  | @subscripts r d hr hne hd =>
    have hi := rtakeWhile_append_of_forall_not hne (fun c hc => isDigit_of_isSubscript (hd c hc)) r
    have ht := (cut_append_of_forall hr hd).1
    rw [split_append_subscripts hr hne hd, IsFull, ht, hi]
    split
    · simp [hnone, next?]
    · simp [hnone, hne]
      omega
  | plain hp hd hs => simp [IsFull, hd, hs, hnone, split_of_plain hp hd hs]

/-! ## One step -/

/-- Varying does not shorten the root. -/
theorem root_isPrefix_root_next (s : Text) : root s <+: root (next s) := by
  cases step s with
  | counts hs hd hn hb =>
    have hroot : root (next s) = root s := by rw [root, root, hs, hb]
    exact hroot ▸ List.prefix_rfl
  | starts hs hn hb =>
    rw [show root (next s) = s by rw [root, hb]]
    exact root_isPrefix s
  | lengthens hs hn hb =>
    rw [root_eq_self_iff.mpr (congrArg Prod.snd hb), hn]
    exact (root_isPrefix s).trans (List.prefix_append s first)

/-- The next variation of a token has the same root, unless a full counter is in the way. -/
theorem root_next_eq_iff (s : Text) : root (next s) = root s ↔ ¬ IsFull s := by
  rw [isFull_iff]
  cases step s with
  | counts hs hd hn hb => simp [root, hs, hb, hd]
  | starts hs hn hb =>
    have hroot : root (next s) = s := by rw [root, hb]
    have ht : s.rtakeWhile isSubscript = [] := by
      rw [← root_append_first_eq_iff, ← hn, hroot]
    rw [hroot, eq_comm, root_eq_self_iff]
    simp [hs, ht]
  | lengthens hs hn hb =>
    have hroot : root (next s) = s ++ first := by
      rw [root_eq_self_iff.mpr (congrArg Prod.snd hb), hn]
    have ht : s.rtakeWhile isSubscript ≠ [] := by
      rw [Ne, ← root_append_first_eq_iff, ← hn, hroot]
      simp [first_eq]
    have hlong : root (next s) ≠ root s := by
      intro h
      have hle := (root_isPrefix s).length_le
      rw [← h, hroot, List.length_append, first_eq, List.length_singleton] at hle
      exact Nat.not_succ_le_self _ hle
    simp [hs, ht, hlong]

/-! ## Many steps -/

/-- However often it is varied, the root of a token stays in front. -/
theorem root_isPrefix_root_variation (k : ℕ) (s : Text) : root s <+: root (variation k s) := by
  induction k generalizing s with
  | zero => exact List.prefix_rfl
  | succ k ih => exact (root_isPrefix_root_next s).trans (ih (next s))

/-- A variation of a token has the same root exactly if no counter was full on the way to it. -/
theorem root_variation_eq_iff (k : ℕ) (s : Text) :
    root (variation k s) = root s ↔ ∀ j < k, ¬ IsFull (variation j s) := by
  induction k with
  | zero => simp [variation]
  | succ k ih =>
    have hnext := root_next_eq_iff (variation k s)
    rw [variation_succ_eq_next, Nat.forall_lt_succ_right, ← ih, ← hnext]
    constructor
    · intro h
      -- a root that had grown before this step could not be the first one behind it
      have hle := (root_isPrefix_root_next (variation k s)).length_le
      have hprefix := root_isPrefix_root_variation k s
      rw [h] at hle
      have hsame := hprefix.eq_of_length (Nat.le_antisymm hprefix.length_le hle)
      exact ⟨hsame.symm, h.trans hsame⟩
    · rintro ⟨hsame, h⟩
      exact h.trans hsame

/-! ## Characters of variations -/

/-- A counter that is reached by counting is written with characters of its alphabet, at least
one. -/
theorem isCounting_of_next? {c d : Counter} (h : c.next? = some d) :
    d.render ≠ [] ∧ ∀ a ∈ d.render, isCounting a = true := by
  obtain ⟨n, rfl, rfl⟩ | ⟨n, -, rfl, rfl⟩ | ⟨n, -, rfl, rfl⟩ := cases_of_next? h
  · refine ⟨List.cons_ne_nil _ _, fun a ha => ?_⟩
    simp [isCounting, isPrime_iff.mpr (List.eq_of_mem_replicate ha)]
  · refine ⟨decimal_ne_nil _, fun a ha => ?_⟩
    simp [isCounting, isDigit_of_mem_decimal ha]
  · refine ⟨mt List.map_eq_nil_iff.mp (decimal_ne_nil _), fun a ha => ?_⟩
    simp [isCounting, isSubscript_of_mem_lower_decimal ha]

/-- The next variation of a token is a beginning of the token with a counter behind it. -/
theorem exists_next_eq_append (s : Text) :
    ∃ r counter, r <+: s ∧ next s = r ++ counter ∧ counter ≠ [] ∧
      ∀ c ∈ counter, isCounting c = true := by
  have hfirst : first ≠ [] ∧ ∀ c ∈ first, isCounting c = true := by
    rw [first_eq, List.forall_mem_singleton]
    exact ⟨List.cons_ne_nil _ _, by decide⟩
  cases step s with
  | @counts r c d hs hd hn hb =>
    have hr : root s = r := by rw [root, hs]
    exact ⟨r, d.render, hr ▸ root_isPrefix s, hn, isCounting_of_next? hd⟩
  | starts hs hn hb => exact ⟨s, first, List.prefix_rfl, hn, hfirst⟩
  | lengthens hs hn hb => exact ⟨s, first, List.prefix_rfl, hn, hfirst⟩

theorem next_ne_nil (s : Text) : next s ≠ [] := by
  obtain ⟨r, counter, -, hn, hne, -⟩ := exists_next_eq_append s
  rw [hn]
  exact List.append_ne_nil_of_right_ne_nil r hne

/-- Counting brings in no character that does not count. -/
theorem notMem_next {a : Char} (ha : isCounting a = false) {s : Text} (h : a ∉ s) :
    a ∉ next s := by
  obtain ⟨r, counter, hr, hn, -, hcounter⟩ := exists_next_eq_append s
  rw [hn, List.mem_append, not_or]
  refine ⟨fun hmem => h (hr.subset hmem), fun hmem => ?_⟩
  rw [hcounter a hmem] at ha
  cases ha

/-- A variation ends in a character that counts. -/
theorem exists_getLast?_next (s : Text) :
    ∃ c, (next s).getLast? = some c ∧ isCounting c = true := by
  obtain ⟨r, counter, -, hn, hne, hcounter⟩ := exists_next_eq_append s
  refine ⟨counter.getLast hne, ?_, hcounter _ (List.getLast_mem hne)⟩
  rw [hn, List.getLast?_eq_some_getLast (List.append_ne_nil_of_right_ne_nil r hne),
    List.getLast_append_of_ne_nil _ hne]

end MixfixNames.Token
