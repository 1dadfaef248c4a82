/-
# Which Texts Are Module Names

A text is the written form of a module name if it is not empty and something stands before, behind
and between its full stops. Reading accepts exactly these texts, and it is the inverse of writing on
the module names with proper parts that hold no full stop. The main statement, `parse_outcome`, also
says which of the two errors any other text gives.
-/
import MixfixNames.Proofs.ModuleName.NamedFile
import MixfixNames.Proofs.ModuleName.ReadBack

namespace MixfixNames.ModuleName

open QualifiedName (separator)

/-! ## Written names -/

/-- The text is written as a module name: it is not empty, and no part of it is missing before,
behind or between full stops. -/
structure IsWritten (s : Text) : Prop where
  /-- There is a character. -/
  ne_nil : s ≠ []
  /-- There is a part before the first full stop. -/
  head?_ne : s.head? ≠ some separator
  /-- There is a part behind the last full stop. -/
  getLast?_ne : s.getLast? ≠ some separator
  /-- There is a part between any two full stops. -/
  pair_not_infix : ¬ [separator, separator] <:+: s

/-- A text is one that a module name is written as exactly if none of its pieces is empty. -/
theorem isWritten_iff {s : Text} : IsWritten s ↔ [] ∉ s.splitOn separator := by
  rw [Sequence.nil_mem_splitOn_iff separator s]
  constructor
  · rintro ⟨hne, hhead, hlast, hpair⟩ (h | h | h | h)
    · exact hne h
    · exact hhead h
    · exact hlast h
    · exact hpair h
  · intro h
    simp only [not_or] at h
    exact ⟨h.1, h.2.1, h.2.2.1, h.2.2.2⟩

instance : DecidablePred IsWritten := fun _ => decidable_of_iff _ isWritten_iff.symm

/-- The parts of a text are proper exactly if the text is written as a module name. -/
theorem isProper_partsOfText_iff {s : Text} : IsProper (partsOfText s) ↔ IsWritten s := by
  rw [isWritten_iff, partsOfText]
  by_cases h : s = []
  · subst h
    exact iff_of_false (fun hproper => hproper.ne_nil rfl) (by simp)
  · rw [if_neg h]
    exact ⟨fun hproper => hproper.nil_notMem, fun hnil => ⟨List.splitOn_ne_nil separator s, hnil⟩⟩

/-! ## Reading -/

/-- Reading is the inverse of writing on proper undotted parts. -/
theorem parse_eq_ok_iff {range : SourceRange} {s : Text} {m : ModuleName} :
    parse range s = .ok m ↔
      m.range = range ∧ m.render = s ∧ IsProper m.parts ∧ m.IsUndotted := by
  constructor
  · intro h
    obtain ⟨hproper, hparts⟩ := parts_of_parse h
    refine ⟨(parts_of_ofParts h).2, ?_, hproper, fun part hp => ?_⟩
    · rw [render, hparts, Text.join, List.intercalate_splitOn]
    · rw [hparts] at hp
      exact Sequence.not_mem_of_mem_splitOn hp
  · rintro ⟨rfl, rfl, hproper, hundotted⟩
    rw [parse_render hproper, flatMap_splitOn_eq_iff.mpr hundotted]
    exact ofParts_eq_ok_iff.mpr ⟨hproper, rfl, rfl⟩

/-- These texts are the ones that can be read. -/
theorem exists_parse_iff_isWritten (range : SourceRange) (s : Text) :
    (∃ m, parse range s = .ok m) ↔ IsWritten s := by
  rw [← isProper_partsOfText_iff]
  constructor
  · rintro ⟨m, hm⟩
    obtain ⟨hproper, -⟩ := ofParts_eq_ok_iff.mp hm
    exact hproper
  · intro hproper
    exact ⟨⟨range, partsOfText s, hproper.ne_nil⟩, ofParts_eq_ok_iff.mpr ⟨hproper, rfl, rfl⟩⟩

/-- Different texts are read as different module names. -/
theorem beq_iff_of_parse {range range' : SourceRange} {s t : Text} {m n : ModuleName}
    (hm : parse range s = .ok m) (hn : parse range' t = .ok n) : (m == n) = true ↔ s = t := by
  obtain ⟨-, hs, -⟩ := parse_eq_ok_iff.mp hm
  obtain ⟨-, ht, -⟩ := parse_eq_ok_iff.mp hn
  constructor
  · intro hmn
    rw [← hs, ← ht, render, render, beq_iff.mp hmn]
  · rintro rfl
    rw [beq_iff, (parts_of_parse hm).2, (parts_of_parse hn).2]

/-- Parts that make up no module name give the error that there are none if there are none, and else
the error that one is empty. -/
theorem ofParts_eq_error_iff {range : SourceRange} {parts : List Text} {e : NameError} :
    ofParts range parts = .error e ↔
      ¬ IsProper parts ∧
        e = .broken ⟨if parts = [] then .someParts else .noEmptyPart, range⟩ := by
  by_cases hproper : IsProper parts
  · have hok : ofParts range parts = .ok ⟨range, parts, hproper.ne_nil⟩ :=
      ofParts_eq_ok_iff.mpr ⟨hproper, rfl, rfl⟩
    simp [hok, hproper]
  · have herror : ofParts range parts =
        .error (.broken ⟨if parts = [] then .someParts else .noEmptyPart, range⟩) := by
      by_cases hparts : parts = []
      · rw [ofParts, dif_pos hparts, if_pos hparts]
      · have hnil : [] ∈ parts := not_not.mp fun hnil => hproper ⟨hparts, hnil⟩
        have hany : parts.any List.isEmpty = true := List.any_eq_true.mpr ⟨[], hnil, rfl⟩
        rw [ofParts, dif_neg hparts, if_pos hany, if_neg hparts]
    rw [herror, Except.error.injEq, eq_comm]
    exact (and_iff_right hproper).symm

theorem partsOfText_eq_nil_iff {s : Text} : partsOfText s = [] ↔ s = [] := by
  by_cases hs : s = []
  · exact iff_of_true (if_pos hs) hs
  · rw [partsOfText, if_neg hs]
    exact iff_of_false (List.splitOn_ne_nil separator s) hs

/-- Any other text is refused, the empty one for having no parts and the others for an empty part.
-/
theorem parse_eq_error_iff {range : SourceRange} {s : Text} {e : NameError} :
    parse range s = .error e ↔
      ¬ IsWritten s ∧ e = .broken ⟨if s = [] then .someParts else .noEmptyPart, range⟩ := by
  simp only [parse, ofParts_eq_error_iff, isProper_partsOfText_iff, partsOfText_eq_nil_iff]

/-- A text is read as a module name exactly if it is written as one. What is read has that text as
its written name and the range that it was read at, and different texts are read as different
module names. From the empty text comes the error that there are no parts, from any other text the
error that a part is empty, at the range of the text. And a module name with proper parts and
without a full stop in a part is what its written name is read as. -/
theorem parse_outcome (range : SourceRange) (s : Text) :
    ((∃ m, parse range s = .ok m) ↔ IsWritten s) ∧
      (∀ m, parse range s = .ok m → m.render = s ∧ m.range = range) ∧
      (∀ e, parse range s = .error e ↔ ¬ IsWritten s ∧
        e = .broken ⟨if s = [] then .someParts else .noEmptyPart, range⟩) ∧
      (∀ m : ModuleName, (∀ part ∈ m.parts, part ≠ [] ∧ separator ∉ part) →
        ∃ n, parse range m.render = .ok n ∧ (n == m) = true) ∧
      ∀ range' t m n, parse range s = .ok m → parse range' t = .ok n →
        ((m == n) = true ↔ s = t) := by
  refine ⟨exists_parse_iff_isWritten range s, fun m h => ?_, fun e => parse_eq_error_iff,
    fun m h => ?_, ?_⟩
  · obtain ⟨hrange, hrender, -⟩ := parse_eq_ok_iff.mp h
    exact ⟨hrender, hrange⟩
  · have hproper : IsProper m.parts := ⟨m.parts_ne_nil, fun hnil => (h [] hnil).1 rfl⟩
    exact (exists_parse_render_iff hproper range).mpr fun part hp => (h part hp).2
  · intro range' t m n hm hn
    exact beq_iff_of_parse hm hn

example : IsWritten "Data.List".toList ∧ ¬ IsWritten ".A".toList ∧ ¬ IsWritten "A..B".toList := by
  decide

end MixfixNames.ModuleName
