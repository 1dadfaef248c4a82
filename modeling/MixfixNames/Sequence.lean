/-
# Sequences

The longest tail of a sequence whose elements all pass a test, the pieces between separators, the
cut at the last separator, and a position in a sequence that is being read from its two ends. The
main statements say that nothing is lost by a cut, that no separator is left in a piece or behind
the last cut, and which sequences have an empty piece.
-/

namespace MixfixNames.Sequence

variable {α : Type}

/-! ## The longest passing tail

These are `List.rtakeWhile` and `List.rdropWhile`, written out so that what runs does not depend on
Mathlib. Proofs are about those, into which both unfold.
-/

/-- The longest tail of `s` all of whose elements pass `p`. -/
def trailing (p : α → Bool) (s : List α) : List α :=
  (s.reverse.takeWhile p).reverse

/-- What stands before the longest tail of `s` all of whose elements pass `p`. -/
def beforeTrailing (p : α → Bool) (s : List α) : List α :=
  (s.reverse.dropWhile p).reverse

/-! ## The pieces between separators -/

/-- No piece contains the separator. -/
theorem not_mem_of_mem_splitOn [DecidableEq α] {sep : α} {s piece : List α}
    (h : piece ∈ s.splitOn sep) : sep ∉ piece := by
  induction s generalizing piece with
  | nil => simp_all
  | cons a s ih =>
    rw [List.splitOn_cons_eq_if_modifyHead] at h
    split at h
    · rcases List.mem_cons.mp h with rfl | h
      · simp
      · exact ih h
    · next ha =>
      cases hs : s.splitOn sep with
      | nil => exact absurd hs (List.splitOn_ne_nil sep s)
      | cons first rest =>
        rw [hs] at h ih
        rw [List.modifyHead_cons] at h
        rcases List.mem_cons.mp h with rfl | h
        · have := ih List.mem_cons_self
          simp only [List.mem_cons, not_or]
          exact ⟨fun he => ha (by simp [he]), this⟩
        · exact ih (List.mem_cons_of_mem _ h)

/-- Apart from the separator the pieces are made of what the sequence is made of. -/
theorem exists_mem_splitOn_iff [DecidableEq α] {sep a : α} (h : a ≠ sep) {s : List α} :
    (∃ piece ∈ s.splitOn sep, a ∈ piece) ↔ a ∈ s := by
  induction s with
  | nil => simp
  | cons b s ih =>
    rw [List.splitOn_cons_eq_if_modifyHead, List.mem_cons, ← ih]
    split
    · next hb =>
      have hab : a ≠ b := fun hab => h (hab.trans (beq_iff_eq.mp hb))
      simp [hab]
    · obtain ⟨first, rest, hs⟩ := List.exists_cons_of_ne_nil (List.splitOn_ne_nil sep s)
      simp [hs, or_assoc]

/-- There is one piece more than there are separators. -/
theorem length_splitOn [DecidableEq α] (sep : α) (s : List α) :
    (s.splitOn sep).length = s.count sep + 1 := by
  induction s with
  | nil => simp
  | cons a s ih =>
    rw [List.splitOn_cons_eq_if_modifyHead, List.count_cons]
    by_cases h : a = sep <;> simp [h, ih]

/-- The first piece is empty exactly if there is nothing in front of a separator. -/
theorem head?_splitOn_eq_nil_iff [DecidableEq α] (sep : α) (s : List α) :
    (s.splitOn sep).head? = some [] ↔ s = [] ∨ s.head? = some sep := by
  cases s with
  | nil => simp
  | cons a s =>
    rw [List.splitOn_cons_eq_if_modifyHead]
    by_cases h : a = sep
    · simp [h]
    · cases hs : s.splitOn sep <;> simp [h]

/-- A later piece is empty exactly if there is nothing behind or between separators. -/
theorem nil_mem_tail_splitOn_iff [DecidableEq α] (sep : α) (s : List α) :
    [] ∈ (s.splitOn sep).tail ↔ s.getLast? = some sep ∨ [sep, sep] <:+: s := by
  induction s with
  | nil => simp
  | cons a s ih =>
    -- behind a separator stand all the pieces of the rest, else only the later ones
    have hlast : (a :: s).getLast? = some sep ↔ s = [] ∧ a = sep ∨ s.getLast? = some sep := by
      cases s <;> simp
    have hpair : [sep, sep] <:+: a :: s ↔ a = sep ∧ s.head? = some sep ∨ [sep, sep] <:+: s := by
      rw [List.infix_cons_iff, List.cons_prefix_cons, eq_comm (a := a)]
      cases s <;> simp [List.cons_prefix_cons, eq_comm (a := sep)]
    obtain ⟨first, rest, hs⟩ := List.exists_cons_of_ne_nil (List.splitOn_ne_nil sep s)
    have hfirst := head?_splitOn_eq_nil_iff sep s
    rw [hs] at ih hfirst
    rw [List.tail_cons] at ih
    rw [List.head?_cons, Option.some.injEq] at hfirst
    rw [List.splitOn_cons_eq_if_modifyHead, hs, hlast, hpair]
    by_cases h : a = sep
    · rw [if_pos (beq_iff_eq.mpr h), List.tail_cons, List.mem_cons, eq_comm, hfirst, ih,
        and_iff_left h, and_iff_right h, or_or_or_comm]
    · simp [h, ih]

/-- A piece is empty exactly if there is nothing before, behind or between separators. -/
theorem nil_mem_splitOn_iff [DecidableEq α] (sep : α) (s : List α) :
    [] ∈ s.splitOn sep ↔
      s = [] ∨ s.head? = some sep ∨ s.getLast? = some sep ∨ [sep, sep] <:+: s := by
  obtain ⟨first, rest, hs⟩ := List.exists_cons_of_ne_nil (List.splitOn_ne_nil sep s)
  have hfirst := head?_splitOn_eq_nil_iff sep s
  have hrest := nil_mem_tail_splitOn_iff sep s
  rw [← or_assoc, ← hfirst, ← hrest, hs, List.mem_cons, List.head?_cons, Option.some.injEq,
    List.tail_cons, eq_comm]

/-! ## The cut at the last separator -/

/-- The parts of a sequence before and behind the last `sep` in it; nothing if there is none. -/
def splitLast? [DecidableEq α] (sep : α) : List α → Option (List α × List α)
  | [] => none
  | a :: s =>
    match splitLast? sep s with
    | some (before, behind) => some (a :: before, behind)
    | none => if a = sep then some ([], s) else none

/-- There is no cut exactly where there is no separator. -/
theorem splitLast?_eq_none_iff [DecidableEq α] {sep : α} {s : List α} :
    splitLast? sep s = none ↔ sep ∉ s := by
  induction s with
  | nil => simp [splitLast?]
  | cons a s ih =>
    cases h : splitLast? sep s with
    | some c =>
      have : sep ∈ s := by
        by_cases hs : sep ∈ s
        · exact hs
        · rw [ih.mpr hs] at h
          cases h
      simp [splitLast?, h, this]
    | none =>
      have : sep ∉ s := ih.mp h
      by_cases ha : a = sep
      · simp [splitLast?, h, ha]
      · simp [splitLast?, h, ha, this, Ne.symm ha]

/-- A cut loses the separator only, and no separator stands behind it. -/
theorem eq_append_of_splitLast? [DecidableEq α] {sep : α} {s before behind : List α}
    (h : splitLast? sep s = some (before, behind)) :
    s = before ++ sep :: behind ∧ sep ∉ behind := by
  induction s generalizing before with
  | nil => simp [splitLast?] at h
  | cons a s ih =>
    cases hs : splitLast? sep s with
    | some c =>
      obtain ⟨b, e⟩ := c
      simp only [splitLast?, hs, Option.some.injEq, Prod.mk.injEq] at h
      obtain ⟨rfl, rfl⟩ := h
      exact ⟨by rw [(ih hs).1, List.cons_append], (ih hs).2⟩
    | none =>
      by_cases ha : a = sep
      · simp only [splitLast?, hs, ha, if_true, Option.some.injEq, Prod.mk.injEq] at h
        obtain ⟨rfl, rfl⟩ := h
        exact ⟨by rw [ha, List.nil_append], splitLast?_eq_none_iff.mp hs⟩
      · simp [splitLast?, hs, ha] at h

/-- A sequence whose last separator is shown is cut there. -/
theorem splitLast?_append_cons [DecidableEq α] {sep : α} {behind : List α} (h : sep ∉ behind)
    (before : List α) : splitLast? sep (before ++ sep :: behind) = some (before, behind) := by
  induction before with
  | nil => simp [splitLast?, splitLast?_eq_none_iff.mpr h]
  | cons a before ih => simp [splitLast?, ih]


/-! ## Reading positions -/

/-- A reading position in a sequence, given by the items that neither end has yielded yet. -/
structure Cursor (α : Type) where
  /-- The items that are left, in order. -/
  rest : List α
  deriving DecidableEq, Repr

namespace Cursor

/-- A cursor at the start of a sequence. -/
def ofList (xs : List α) : Cursor α := ⟨xs⟩

/-- The next item from the front, and the cursor behind it. -/
def next (c : Cursor α) : Option α × Cursor α := (c.rest.head?, ⟨c.rest.tail⟩)

/-- The next item from the back, and the cursor without it. -/
def back (c : Cursor α) : Option α × Cursor α := (c.rest.getLast?, ⟨c.rest.dropLast⟩)

/-- The number of items that are left. -/
def count (c : Cursor α) : Nat := c.rest.length

/-- A sequence that starts with `a` yields `a`. -/
@[simp] theorem next_cons (a : α) (xs : List α) : next ⟨a :: xs⟩ = (some a, ⟨xs⟩) := rfl

/-- An exhausted cursor yields nothing and stays exhausted. -/
@[simp] theorem next_nil : next (⟨[]⟩ : Cursor α) = (none, ⟨[]⟩) := rfl

/-- A sequence that ends in `a` yields `a` from the back. -/
@[simp] theorem back_concat (a : α) (xs : List α) : back ⟨xs ++ [a]⟩ = (some a, ⟨xs⟩) := by
  simp [back]

/-- An exhausted cursor yields nothing from the back either. -/
@[simp] theorem back_nil : back (⟨[]⟩ : Cursor α) = (none, ⟨[]⟩) := rfl

end Cursor

end MixfixNames.Sequence
