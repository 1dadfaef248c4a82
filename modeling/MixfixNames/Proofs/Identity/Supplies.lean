/-
# Scripts over Supplies

Supplies are asked for identities and for names of wildcards, in any order. What a supply answers
depends on its own calls alone, and its calls are numbered in order as long as the numbers fit a
word. The counter wraps around one call later than the greatest number is reached, so this number is
given twice before the numbers start again. The main statement, `supplyLaws_and_first_repeat`, says
what follows for the names, and which call is the first one that repeats an identity.
-/
import MixfixNames.Proofs.Identity.Order

namespace MixfixNames

/-! ## One supply -/

namespace IdSupply

/-- The supply behind `n` more calls. -/
def after (s : IdSupply) (n : ℕ) : IdSupply := ⟨s.issued + UInt64.ofNat n⟩

theorem after_zero (s : IdSupply) : s.after 0 = s :=
  congrArg IdSupply.mk (UInt64.add_zero s.issued)

/-- One call and `n` more are `n + 1` calls. -/
theorem after_fresh (s : IdSupply) (n : ℕ) : s.fresh.2.after n = s.after (n + 1) := by
  have hone : UInt64.ofNat (n + 1) = 1 + UInt64.ofNat n := by
    rw [Nat.add_comm, UInt64.ofNat_add]
    rfl
  rw [after, after, hone, ← UInt64.add_assoc]
  rfl

/-- The counter wraps around behind the greatest word, where the number has stopped already. -/
theorem number_fresh_after_new (n : ℕ) :
    (new.after n).fresh.1.number = min (n % (wordMax + 1) + 1) wordMax := by
  have hissued : (new.after n).issued.toNat = n % (wordMax + 1) := by
    simp [after, new, wordMax]
  rw [fresh, hissued]

/-- Up to the greatest word the numbers go up one by one. -/
theorem fresh_after_new_of_lt {n : ℕ} (h : n < wordMax) : (new.after n).fresh.1 = ⟨n + 1⟩ := by
  have hnumber := number_fresh_after_new n
  rw [Nat.mod_eq_of_lt (by omega), Nat.min_eq_left (by omega)] at hnumber
  exact congrArg AnonymousId.mk hnumber

/-- The call behind the greatest word gets this word once more. -/
theorem fresh_after_new_wordMax : (new.after wordMax).fresh.1 = ⟨wordMax⟩ := by
  have hnumber := number_fresh_after_new wordMax
  rw [Nat.mod_eq_of_lt (by omega), Nat.min_eq_right (by omega)] at hnumber
  exact congrArg AnonymousId.mk hnumber

end IdSupply

/-! ## Scripts -/

namespace Supplies

/-- A call in a script over several supplies. -/
inductive Call where
  /-- A supply is asked for an identity. -/
  | fresh (k : ℕ)
  /-- A wildcard that was written at a range gets its identity from a supply. -/
  | anonymous (k : ℕ) (range : SourceRange)
  deriving Repr

/-- What is answered to a call. -/
inductive Answer where
  /-- An identity. -/
  | id (id : AnonymousId)
  /-- The name of a wildcard. -/
  | name (x : Name)
  deriving Repr

/-- The supply that is called. -/
def Call.supply : Call → ℕ
  | fresh k => k
  | anonymous k _ => k

/-- The answer that is made of the identity that the supply gives. -/
def Call.answer : Call → AnonymousId → Answer
  | fresh _, id => .id id
  | anonymous _ range, id => .name (Name.anonymous range id)

/-- The identity in an answer. -/
def Answer.identity : Answer → Identity
  | id i => .anonymous i
  | name x => x.identity

/-- Whichever way an identity is asked for, it is the one in the answer. -/
theorem Call.identity_answer (call : Call) (id : AnonymousId) :
    (call.answer id).identity = .anonymous id := by
  cases call <;> rfl

/-- The calls of a script that are made on supply `k`. -/
def callsOn (k : ℕ) (script : List Call) : List Call := script.filter fun call => call.supply = k

/-- What supply `k` answers to its calls in a script. -/
def answersOf (k : ℕ) (all : Supplies) (script : List Call) : List Answer :=
  ((script.zip (all.run (script.map Call.supply))).filter fun entry => entry.1.supply = k).map
    fun entry => entry.1.answer entry.2

/-! ### One call -/

section Calls

variable {k : ℕ} {call : Call} (all : Supplies) (script : List Call)

theorem callsOn_cons_of_eq (h : call.supply = k) :
    callsOn k (call :: script) = call :: callsOn k script :=
  List.filter_cons_of_pos (decide_eq_true h)

theorem callsOn_cons_of_ne (h : call.supply ≠ k) :
    callsOn k (call :: script) = callsOn k script :=
  List.filter_cons_of_neg (by simpa using h)

/-- A call on the supply is answered first, and the others by the supply behind it. -/
theorem answersOf_cons_of_eq (h : call.supply = k) :
    all.answersOf k (call :: script) =
      call.answer (all.fresh k).1 :: (all.fresh k).2.answersOf k script := by
  simp [answersOf, run, h]

/-- A call on another supply is not answered by this one. -/
theorem answersOf_cons_of_ne (h : call.supply ≠ k) :
    all.answersOf k (call :: script) = (all.fresh call.supply).2.answersOf k script := by
  simp [answersOf, run, h]

end Calls

/-! ### Whole scripts -/

/-- Each call is answered by the supply behind the calls that were made on it before, whatever was
called on the others. -/
theorem answersOf_eq_mapIdx (k : ℕ) (all : Supplies) (script : List Call) :
    all.answersOf k script =
      (callsOn k script).mapIdx fun n call => call.answer ((all.state k).after n).fresh.1 := by
  -- the supply is the same behind a call on another one, and one call further behind its own
  induction script generalizing all with
  | nil => rfl
  | cons call script ih =>
    by_cases h : call.supply = k
    · rw [answersOf_cons_of_eq all script h, callsOn_cons_of_eq script h, List.mapIdx_cons, ih,
        state_fresh_self, IdSupply.after_zero]
      simp only [IdSupply.after_fresh]
      rfl
    · rw [answersOf_cons_of_ne all script h, callsOn_cons_of_ne script h, ih,
        state_fresh_of_ne all (Ne.symm h)]

variable {k n : ℕ} {script : List Call}

/-- Of supplies that are new, answer `n` is made of the identity behind `n` calls. -/
theorem getElem?_answersOf_new (k : ℕ) (script : List Call) (n : ℕ) :
    (new.answersOf k script)[n]? =
      (callsOn k script)[n]?.map fun call => call.answer (IdSupply.new.after n).fresh.1 := by
  rw [answersOf_eq_mapIdx, List.getElem?_mapIdx]
  rfl

/-- The identity in an answer is the one that the supply gives behind the calls before. -/
theorem identity_of_getElem? {a : Answer} (h : (new.answersOf k script)[n]? = some a) :
    a.identity = .anonymous (IdSupply.new.after n).fresh.1 := by
  rw [getElem?_answersOf_new] at h
  obtain ⟨call, -, rfl⟩ := Option.map_eq_some_iff.mp h
  exact call.identity_answer _

/-- Up to the greatest word the identity in answer `n` has the number `n + 1`. -/
theorem identity_of_getElem?_of_lt {a : Answer} (h : (new.answersOf k script)[n]? = some a)
    (hn : n < wordMax) : a.identity = .anonymous ⟨n + 1⟩ := by
  rw [identity_of_getElem? h, IdSupply.fresh_after_new_of_lt hn]

/-- Every answer has an identity with a number that is not 0. -/
theorem exists_identity_of_mem {a : Answer} (h : a ∈ new.answersOf k script) :
    ∃ id, a.identity = .anonymous id ∧ 0 < id.number := by
  obtain ⟨n, hn⟩ := List.mem_iff_getElem?.mp h
  exact ⟨_, identity_of_getElem? hn, IdSupply.number_fresh_pos _⟩

/-- Every call on the supply is answered. -/
theorem length_answersOf (k : ℕ) (all : Supplies) (script : List Call) :
    (all.answersOf k script).length = (callsOn k script).length := by
  rw [answersOf_eq_mapIdx, List.length_mapIdx]

/-! ## Repeated identities -/

/-- Answer `n`, counted from 0, has the identity of an earlier one. -/
def IsRepeat (answers : List Answer) (n : ℕ) : Prop :=
  ∃ a ∈ answers[n]?, ∃ i < n, ∃ b ∈ answers[i]?, b.identity = a.identity

/-- Only an answer behind the greatest word repeats an identity. -/
theorem le_of_isRepeat (h : IsRepeat (new.answersOf k script) n) : wordMax ≤ n := by
  obtain ⟨a, ha, i, hi, b, hb, hsame⟩ := h
  by_contra hlt
  rw [identity_of_getElem?_of_lt ha (by omega), identity_of_getElem?_of_lt hb (by omega),
    Identity.anonymous.injEq, AnonymousId.mk.injEq] at hsame
  omega

/-- The greatest number is given once more. -/
theorem isRepeat_wordMax (h : wordMax < (new.answersOf k script).length) :
    IsRepeat (new.answersOf k script) wordMax := by
  have hpred : wordMax - 1 < wordMax := by decide
  have ha := List.getElem?_eq_getElem h
  have hb := List.getElem?_eq_getElem (Nat.lt_trans hpred h)
  refine ⟨_, ha, wordMax - 1, hpred, _, hb, ?_⟩
  rw [identity_of_getElem? ha, identity_of_getElem?_of_lt hb hpred,
    IdSupply.fresh_after_new_wordMax]
  rfl

/-- A supply may be called as often as one likes. -/
theorem callsOn_replicate (k n : ℕ) :
    callsOn k (List.replicate n (.fresh k)) = List.replicate n (.fresh k) :=
  List.filter_replicate_of_pos (decide_eq_true rfl)

/-! ## The laws -/

/-- What supply `k` answers in a script, where answers and calls are counted from 0. -/
structure SupplyLaws (k : ℕ) (script : List Call) : Prop where
  /-- What is called on other supplies does not matter. -/
  answersOf_callsOn : new.answersOf k (callsOn k script) = new.answersOf k script
  /-- Every call on the supply is answered. -/
  length_answersOf : (new.answersOf k script).length = (callsOn k script).length
  /-- The identities are numbered from 1 on. -/
  getElem?_answersOf : ∀ n < wordMax, (new.answersOf k script)[n]? =
    (callsOn k script)[n]?.map fun call => call.answer ⟨n + 1⟩
  /-- Names are different, and ordered as they were made. -/
  names_ascend : ∀ i j, i < j → j < wordMax → ∀ x y,
    (new.answersOf k script)[i]? = some (.name x) → (new.answersOf k script)[j]? = some (.name y) →
      (x == y) = false ∧ compare x y = .lt
  /-- A name comes before all identifiers. -/
  name_precedes : ∀ x, .name x ∈ new.answersOf k script →
    ∀ range parts, compare x (Name.ofParts range parts) = .lt
  /-- Every identity is that of a wildcard, and its number is not 0. -/
  exists_identity : ∀ a ∈ new.answersOf k script,
    ∃ id, a.identity = .anonymous id ∧ 0 < id.number
  /-- No identity comes again in the calls that are numbered. -/
  le_of_isRepeat : ∀ n, IsRepeat (new.answersOf k script) n → wordMax ≤ n
  /-- The next call gives an identity that was given before. -/
  isRepeat_wordMax : wordMax < (new.answersOf k script).length →
    IsRepeat (new.answersOf k script) wordMax

theorem supplyLaws (k : ℕ) (script : List Call) : SupplyLaws k script where
  answersOf_callsOn := by
    rw [answersOf_eq_mapIdx, answersOf_eq_mapIdx, callsOn, callsOn, List.filter_filter]
    simp only [Bool.and_self]
  length_answersOf := length_answersOf k new script
  getElem?_answersOf n hn := by rw [getElem?_answersOf_new, IdSupply.fresh_after_new_of_lt hn]
  names_ascend i j hij hj x y hx hy := by
    have hxid : x.identity = .anonymous ⟨i + 1⟩ :=
      identity_of_getElem?_of_lt hx (Nat.lt_trans hij hj)
    have hyid : y.identity = .anonymous ⟨j + 1⟩ := identity_of_getElem?_of_lt hy hj
    have hlt : compare x y = .lt := by
      rw [Name.compare_eq_lt_iff, Name.Precedes, hxid, hyid]
      exact .anonymous (Nat.succ_lt_succ hij)
    refine ⟨?_, hlt⟩
    rw [Bool.eq_false_iff, Ne, Name.beq_iff, ← Name.compare_eq_eq_iff, hlt]
    exact Ordering.noConfusion
  name_precedes x hx range parts := by
    obtain ⟨id, hid, -⟩ := exists_identity_of_mem hx
    have hid : x.identity = .anonymous id := hid
    rw [Name.compare_eq_lt_iff, Name.Precedes, hid]
    exact .anonymousIdentifier id parts
  exists_identity _ ha := exists_identity_of_mem ha
  le_of_isRepeat _ h := le_of_isRepeat h
  isRepeat_wordMax h := isRepeat_wordMax h

/-- In every script each supply numbers its calls from 1 on, up to the greatest word. Names made of
these identities are different, ordered as they were made, and come before all identifiers. The next
call is the first one to give an identity again, and some script gets there. -/
theorem supplyLaws_and_first_repeat :
    (∀ (k : ℕ) (script : List Call), SupplyLaws k script) ∧
      ∀ k, ∃ script, IsRepeat (new.answersOf k script) wordMax := by
  refine ⟨supplyLaws, fun k => ⟨List.replicate (wordMax + 1) (.fresh k), isRepeat_wordMax ?_⟩⟩
  rw [length_answersOf, callsOn_replicate, List.length_replicate]
  exact Nat.lt_succ_self wordMax

-- two supplies give the same identities
example : (new.run [0, 1, 0]).map AnonymousId.number = [1, 1, 2] := by decide

end Supplies

end MixfixNames
