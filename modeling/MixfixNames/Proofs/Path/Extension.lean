/-
# Names With an Extension

The extension of a name is what stands behind its last full stop, if there is something before that
full stop. A path has the extension of the entry that it ends in, if it ends in one, so only the
last of its components counts: `lacksExtension_append_iff`.
-/
import Mathlib.Logic.Basic
import MixfixNames.Path.Basic
import MixfixNames.Proofs.Path.Entries

namespace MixfixNames

open Component

/-- The extension is what stands behind the last full stop of the name, and there is something
before that full stop. -/
def HasExtension (name extension : List UInt8) : Prop :=
  dot ∉ extension ∧ ∃ stem, stem ≠ [] ∧ name = stem ++ dot :: extension

/-- The extension of a name is what it is said to be by `HasExtension`. -/
theorem snd_splitExtension_eq_some_iff {name extension : List UInt8} :
    (splitExtension name).2 = some extension ↔ HasExtension name extension := by
  constructor
  · intro h
    have hsplit : splitExtension name = ((splitExtension name).1, some extension) :=
      Prod.ext rfl h
    obtain ⟨hname, hstem, hdot⟩ := eq_append_of_splitExtension hsplit
    exact ⟨hdot, _, hstem, hname⟩
  · rintro ⟨hdot, stem, hstem, rfl⟩
    rw [splitExtension_append hstem hdot]

/-- The components do not lead to a file with the extension. -/
inductive LacksExtension (extension : List UInt8) : List Component → Prop
  /-- There are no components. -/
  | nothing : LacksExtension extension []
  /-- The last component is not an entry. -/
  | noEntry (dirs : List Component) {c : Component} (h : ∀ name, c ≠ .normal name) :
    LacksExtension extension (dirs ++ [c])
  /-- The last component is an entry, but its name does not have the extension. -/
  | otherName (dirs : List Component) {name : List UInt8} (h : ¬ HasExtension name extension) :
    LacksExtension extension (dirs ++ [.normal name])

section Lacks

variable {extension : List UInt8} {cs : List Component}

/-- A list lacks the extension unless it ends in an entry that has it. -/
theorem lacksExtension_iff :
    LacksExtension extension cs ↔
      ∀ dirs name, cs = dirs ++ [.normal name] → ¬ HasExtension name extension := by
  constructor
  · rintro (_ | ⟨init, hc⟩ | ⟨init, hname⟩) dirs name hcs
    · simp at hcs
    · exact absurd (List.append_singleton_inj.mp hcs).2 (hc name)
    · obtain ⟨-, hsame⟩ := List.append_singleton_inj.mp hcs
      cases hsame
      exact hname
  · intro h
    rcases List.eq_nil_or_concat cs with rfl | ⟨dirs, c, rfl⟩
    · exact .nothing
    · rw [List.concat_eq_append] at h ⊢
      by_cases hc : ∃ name, c = .normal name
      · obtain ⟨name, rfl⟩ := hc
        exact .otherName dirs (h dirs name rfl)
      · exact .noEntry dirs (not_exists.mp hc)

/-- A list that does not lack the extension ends in an entry that has it. -/
theorem not_lacksExtension_iff :
    ¬ LacksExtension extension cs ↔
      ∃ dirs name, cs = dirs ++ [.normal name] ∧ HasExtension name extension := by
  simp only [lacksExtension_iff, not_forall, not_not, exists_prop]

/-- Whether a list lacks the extension depends on its last component alone. -/
theorem lacksExtension_concat_iff {dirs : List Component} {c : Component} :
    LacksExtension extension (dirs ++ [c]) ↔
      ∀ name, c = .normal name → ¬ HasExtension name extension := by
  rw [lacksExtension_iff]
  constructor
  · rintro h name rfl
    exact h dirs name rfl
  · intro h init name hcs
    exact h name (List.append_singleton_inj.mp hcs).2

/-- Components in front of others do not count. -/
theorem lacksExtension_append_iff (h : cs ≠ []) (init : List Component) :
    LacksExtension extension (init ++ cs) ↔ LacksExtension extension cs := by
  rw [← List.dropLast_concat_getLast h, ← List.append_assoc, lacksExtension_concat_iff,
    lacksExtension_concat_iff]

end Lacks

/-- The extension of a path is that of the entry in which its components end. -/
theorem Path.extension?_eq_some_iff {p : Path} {extension : List UInt8} :
    p.extension? = some extension ↔ ¬ LacksExtension extension p.components := by
  unfold extension? fileName?
  simp only [Option.bind_eq_some_iff, entryAtEnd?_eq_some_iff, snd_splitExtension_eq_some_iff,
    not_lacksExtension_iff]
  constructor
  · rintro ⟨name, ⟨dirs, hp⟩, h⟩
    exact ⟨dirs, name, hp, h⟩
  · rintro ⟨dirs, name, hp, h⟩
    exact ⟨name, ⟨dirs, hp⟩, h⟩

end MixfixNames
