/-
# The Search for a Free Name Ends

A search that refuses finitely many names always ends, although nothing in it counts its steps:
the variations of a name are all different, so one of the first of them is not refused. The main
statement, `ask_of_finset`, says what the search finds, after how many questions, and that it comes
back empty-handed only from a name that cannot be varied at all.
-/
import Mathlib.Data.Finset.Card
import Mathlib.Data.Nat.Find
import MixfixNames.Name.Variation
import MixfixNames.Proofs.Name.Variations

namespace MixfixNames.Name

/-! ## Where a search ends -/

/-- The search goes on through taken variations and stops at the first one that is not. -/
theorem ask_of_forall_taken {taken : ℕ → Name → Bool} {asked k : ℕ} {x y : Name}
    (hy : variation? k x = some y)
    (ht : ∀ j < k, ∀ z, variation? j x = some z → taken (asked + j) z = true)
    (hf : taken (asked + k) y = false) :
    ask taken asked x = some ⟨some y, y, asked + k + 1⟩ := by
  -- the number of questions asked goes up with each variation, so it is generalized as well
  induction k generalizing asked x with
  | zero =>
    obtain rfl : x = y := Option.some.inj hy
    exact ask_of_not_taken hf
  | succ k ih =>
    obtain ⟨w, hw, hk⟩ := Option.bind_eq_some_iff.mp hy
    have hshift : asked + 1 + k = asked + (k + 1) := by omega
    have hx : taken asked x = true := ht 0 (Nat.succ_pos k) x rfl
    rw [ask_of_next? hx hw, ← hshift]
    apply ih hk
    · intro j hj z hz
      have hz' : variation? (j + 1) x = some z := by rw [variation?, hw, Option.bind_some, hz]
      have := ht (j + 1) (Nat.succ_lt_succ hj) z hz'
      rwa [show asked + (j + 1) = asked + 1 + j by omega] at this
    · rwa [hshift]

/-- Among as many variations as there are names to avoid, and one more, one is not avoided. -/
theorem exists_variation_notMem {f : ℕ → Name} (hf : Function.Injective fun k => (f k).identity)
    (T : Finset Identity) (m : ℕ) : ∃ k, m ≤ k ∧ k ≤ m + T.card ∧ (f k).identity ∉ T := by
  by_contra hall
  push Not at hall
  -- then one more different identity than `T` has would be in `T`
  have hinj : Set.InjOn (fun k => (f (m + k)).identity) (Finset.range (T.card + 1)) :=
    fun i _ j _ hij => Nat.add_left_cancel (hf hij)
  have hmaps : Set.MapsTo (fun k => (f (m + k)).identity) (Finset.range (T.card + 1)) T := by
    intro k hk
    have hk := Finset.mem_range.mp hk
    exact hall (m + k) (by omega) (by omega)
  have hcard := Finset.card_le_card_of_injOn _ hmaps hinj
  rw [Finset.card_range] at hcard
  omega

/-- A search from a name that can be varied ends at the first variation that it does not refuse,
if one of them is not refused. -/
theorem exists_ask_eq_some {taken : ℕ → Name → Bool} {f : ℕ → Name} {x : Name}
    (hf : ∀ k, variation? k x = some (f k)) (h : ∃ k, taken k (f k) = false) :
    ∃ k, ask taken 0 x = some ⟨some (f k), f k, k + 1⟩ ∧ taken k (f k) = false ∧
      ∀ j < k, taken j (f j) = true := by
  classical
  have hleast : ∀ j < Nat.find h, taken j (f j) = true := fun j hj => by
    simpa using Nat.find_min h hj
  have hfree : taken (Nat.find h) (f (Nat.find h)) = false := Nat.find_spec h
  refine ⟨Nat.find h, ?_, hfree, hleast⟩
  have hbefore : ∀ j < Nat.find h, ∀ z, variation? j x = some z → taken (0 + j) z = true := by
    intro j hj z hz
    obtain rfl : f j = z := Option.some.inj ((hf j).symm.trans hz)
    rw [Nat.zero_add]
    exact hleast j hj
  have hask := ask_of_forall_taken (hf (Nat.find h)) hbefore (by rwa [Nat.zero_add])
  rwa [Nat.zero_add] at hask

/-! ## Names to avoid -/

/-- The names of a list, wherever they were written. -/
def identities (avoid : List Name) : Finset Identity := (avoid.map Name.identity).toFinset

theorem contains_iff {avoid : List Name} {x : Name} :
    avoid.contains x = true ↔ x.identity ∈ identities avoid := by
  rw [List.contains_iff_exists_mem_beq, identities, List.mem_toFinset, List.mem_map]
  constructor
  · rintro ⟨y, hy, hxy⟩
    exact ⟨y, hy, (beq_iff.mp hxy).symm⟩
  · rintro ⟨y, hy, hyx⟩
    exact ⟨y, hy, beq_iff.mpr hyx.symm⟩

/-- Every search that the program makes ends. -/
theorem ask_refuses_eq_some (avoid : List Name) (refusals : ℕ) (x : Name) :
    ask (refuses avoid refusals) 0 x = some (search avoid refusals x) := by
  have hsome : ∃ s, ask (refuses avoid refusals) 0 x = some s := by
    by_cases hx : x.next? = none
    · cases ht : refuses avoid refusals 0 x with
      | false => exact ⟨_, ask_of_not_taken ht⟩
      | true => exact ⟨_, ask_of_next?_eq_none ht hx⟩
    · -- from the number of refusals on, a variation outside the list is not refused
      obtain ⟨f, hf, hinj⟩ := exists_variations hx
      obtain ⟨k, hk, -, hfree⟩ := exists_variation_notMem hinj (identities avoid) refusals
      have hnot : refuses avoid refusals k (f k) = false := by
        rw [refuses, Bool.or_eq_false_iff, decide_eq_false_iff_not, Bool.eq_false_iff, ne_eq,
          contains_iff]
        exact ⟨Nat.not_lt.mpr hk, hfree⟩
      obtain ⟨n, hn, -⟩ := exists_ask_eq_some hf ⟨k, hnot⟩
      exact ⟨_, hn⟩
  obtain ⟨s, hs⟩ := hsome
  rw [search, hs]
  rfl

/-! ## What a search finds -/

/-- Whether a search refuses a name that is in a finite set. -/
def isIn (T : Finset Identity) (_ : ℕ) (y : Name) : Bool := decide (y.identity ∈ T)

/-- The outcome that a search from `x` has to have if it refuses the names in `T`. -/
structure Search.Settles (s : Search) (T : Finset Identity) (x : Name) : Prop where
  /-- It has asked at most one question more than there are names in `T`. -/
  calls_le : s.calls ≤ T.card + 1
  /-- What it has found is the first variation of `x` outside `T`, at the range of `x`. -/
  found_least : ∀ y, s.found = some y → ∃ k ≤ T.card, s.calls = k + 1 ∧
    variation? k x = some y ∧ y.identity ∉ T ∧
    (∀ j < k, ∃ z, variation? j x = some z ∧ z.identity ∈ T) ∧ y.range = x.range
  /-- It has found nothing exactly if `x` is in `T` and cannot be varied. -/
  found_eq_none_iff : s.found = none ↔ x.identity ∈ T ∧
    (x.isAnonymous = true ∨ x.isNameless = true ∨ Part.texts x.shownParts = [])
  /-- If it has found nothing, it has asked about `x` alone. -/
  of_found_eq_none : s.found = none → s = ⟨none, x, 1⟩

/-- A variation outside the set settles a search if all those before it are in the set and it is
not too far away. -/
theorem settles_of_least {T : Finset Identity} {x y : Name} {k : ℕ} (hk : k ≤ T.card)
    (hy : variation? k x = some y) (hnot : y.identity ∉ T)
    (hleast : ∀ j < k, ∃ z, variation? j x = some z ∧ z.identity ∈ T) :
    Search.Settles ⟨some y, y, k + 1⟩ T x where
  calls_le := Nat.succ_le_succ hk
  found_least z hz := by
    obtain rfl : y = z := Option.some.inj hz
    exact ⟨k, hk, rfl, hy, hnot, hleast, range_of_variation? hy⟩
  found_eq_none_iff := by
    rw [← next?_eq_none_iff]
    constructor
    · intro h
      cases h
    · rintro ⟨hx, hnone⟩
      cases k with
      | zero =>
        obtain rfl : x = y := Option.some.inj hy
        exact absurd hx hnot
      | succ k => simp [variation?, hnone] at hy
  of_found_eq_none h := by cases h

/-- A name in the set that cannot be varied settles a search without a find. -/
theorem settles_of_next?_eq_none {T : Finset Identity} {x : Name} (hx : x.identity ∈ T)
    (hnone : x.next? = none) : Search.Settles ⟨none, x, 1⟩ T x where
  calls_le := Nat.succ_le_succ (Nat.zero_le _)
  found_least y hy := by cases hy
  found_eq_none_iff := by
    rw [← next?_eq_none_iff]
    exact ⟨fun _ => ⟨hx, hnone⟩, fun _ => rfl⟩
  of_found_eq_none _ := rfl

/-- A search that refuses the names of a finite set ends and settles what it is after. -/
theorem exists_settles (T : Finset Identity) (x : Name) :
    ∃ s : Search, ask (isIn T) 0 x = some s ∧ s.Settles T x := by
  by_cases hx : x.identity ∈ T
  · by_cases hnone : x.next? = none
    · exact ⟨_, ask_of_next?_eq_none (decide_eq_true hx) hnone,
        settles_of_next?_eq_none hx hnone⟩
    · obtain ⟨f, hf, hinj⟩ := exists_variations hnone
      obtain ⟨n, -, hn, hfree⟩ := exists_variation_notMem hinj T 0
      have hex : ∃ n, isIn T n (f n) = false := ⟨n, decide_eq_false hfree⟩
      obtain ⟨k, hs, hk, hleast⟩ := exists_ask_eq_some hf hex
      have hkn : k ≤ n := by
        by_contra hlt
        exact hfree (of_decide_eq_true (hleast n (Nat.not_le.mp hlt)))
      refine ⟨_, hs, settles_of_least (by omega) (hf k) (of_decide_eq_false hk) ?_⟩
      intro j hj
      exact ⟨f j, hf j, of_decide_eq_true (hleast j hj)⟩
  · refine ⟨_, ask_of_not_taken (decide_eq_false hx),
      settles_of_least (Nat.zero_le _) rfl hx ?_⟩
    intro j hj
    exact absurd hj (Nat.not_lt_zero j)

/-- A search that refuses the names of a finite set ends after at most one question more than the
set has names. What it finds is the variation of `x` that is the least number of steps away among
those outside the set, at the range of `x`. It finds nothing exactly if `x` is in the set and
cannot be varied, and then `x` is the only name it has asked about. The search for a name outside
a list is such a search. -/
theorem ask_of_finset (T : Finset Identity) (x : Name) :
    ∃ s : Search, ask (isIn T) 0 x = some s ∧ s.Settles T x ∧
      ∀ avoid : List Name, (∀ y, avoid.contains y = true ↔ y.identity ∈ T) →
        search avoid 0 x = s := by
  obtain ⟨s, hs, hsettles⟩ := exists_settles T x
  refine ⟨s, hs, hsettles, ?_⟩
  intro avoid ha
  have hrefuses : refuses avoid 0 = isIn T := by
    funext asked y
    rw [refuses, isIn, Bool.eq_iff_iff, Bool.or_eq_true, ha y]
    simp
  have hask := ask_refuses_eq_some avoid 0 x
  rw [hrefuses, hs] at hask
  exact (Option.some.inj hask).symm

end MixfixNames.Name
