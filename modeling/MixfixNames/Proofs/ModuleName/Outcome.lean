/-
# What Comes of Locating a File

Three things are asked of a file, one after the other: that it is below the root, that the
components there end in an entry with the extension, and that parts can be read of them. A file that
fails one of them is refused with the error for it, any other file is located as the module of its
parts. `ofFile_outcome` says exactly when each of this happens and what the error or the module is
then. That a part is empty is never among the reasons.

The root that a module is resolved against is found from the number of its parts alone, whether or
not the file is one of the module. `rootOf_isAncestor` says what this gives for every file: the
components that are left when one is taken off for each part, as long as there is one other than the
root, and so always a directory that the file is below.

Whether a file has the extension is read off the components below the root, and what the error says
of it off the whole path. The two differ only if nothing is below the root, that is, if the file is
the root itself. `wrongExtension_of_expected_iff` says so, and that the message can name the
expected extension as the one that was found in one other case only: the extension is not text and
is shown as the expected one.
-/
import MixfixNames.Proofs.ModuleName.Written
import MixfixNames.Proofs.Path.Ascent

namespace MixfixNames

open Component

namespace ModuleName

/-! ## Parts that are read of a file -/

/-- What is read of a file that is found through `dirs` under `stem`: the entries on the way to it,
and the stem unless it is `.` or `..`, which are no entries. -/
def partsRead (dirs : List Component) (stem : List UInt8) : List Text :=
  dirs.filterMap Component.text? ++
    if stem = [dot] ∨ stem = [dot, dot] then [] else [Utf8.lossy stem]

/-- The parts of a file are the texts of the components that they stand in. -/
theorem filterMap_text?_partComponents (dirs : List Component) {stem : List UInt8}
    (h : stem ≠ []) :
    (partComponents dirs stem).filterMap Component.text? = partsRead dirs stem := by
  have hstem : (Component.ofPiece? stem).toList.filterMap Component.text? =
      if stem = [dot] ∨ stem = [dot, dot] then [] else [Utf8.lossy stem] := by
    unfold Component.ofPiece?
    by_cases hdot : stem = [dot]
    · simp [hdot]
    · by_cases hdots : stem = [dot, dot]
      · simp [hdots, Component.text?]
      · simp [h, hdot, hdots, Component.text?]
  rw [partComponents, List.filterMap_append, hstem, partsRead]

section Outcome

variable {root file : Path} {extension : Text} {dirs : List Component} {stem : List UInt8}

/-- No part that is read of a file is empty. -/
theorem IsFound.nil_notMem_partsRead (h : IsFound root file extension dirs stem) :
    [] ∉ partsRead dirs stem := by
  rw [← filterMap_text?_partComponents dirs h.stem_ne_nil]
  intro hnil
  obtain ⟨c, hc, ht⟩ := List.mem_filterMap.mp hnil
  obtain ⟨name, rfl, hname⟩ := text?_eq_some_iff.mp ht
  exact (isOrdinaryPart_lossy (h.isEntryName_of_mem hc)).1 hname

/-- Parts that are read of a file make up a module unless there are none. -/
theorem IsFound.isProper_partsRead_iff (h : IsFound root file extension dirs stem) :
    IsProper (partsRead dirs stem) ↔ partsRead dirs stem ≠ [] :=
  ⟨fun hproper => hproper.ne_nil, fun hne => ⟨hne, h.nil_notMem_partsRead⟩⟩

/-! ## Outcomes -/

variable (root file extension) in
/-- What comes of locating a file below a root, by the rules alone. -/
inductive Outcome : Except NameError ModuleName → Prop
  /-- The file is not below the root. -/
  | outsideRoot (h : ¬ root.components <+: file.components) :
    Outcome (.error (.outsideRoot ⟨root, file⟩))
  /-- Below the root there is no entry with the extension at the end. -/
  | wrongExtension {below : List Component} (hbelow : file.components = root.components ++ below)
    (h : LacksExtension (Utf8.encode (withoutDot extension)) below) :
    Outcome (.error (.wrongExtension ⟨file, withoutDot extension⟩))
  /-- The file has the extension, but no part can be read of it. -/
  | noParts {dirs : List Component} {stem : List UInt8}
    (h : IsFound root file extension dirs stem) (hparts : partsRead dirs stem = []) :
    Outcome (.error (.broken ⟨.someParts, .atStartOf file⟩))
  /-- The file is located as the module of the parts that are read of it. -/
  | located {dirs : List Component} {stem : List UInt8} {m : ModuleName}
    (h : IsFound root file extension dirs stem) (hparts : m.parts = partsRead dirs stem)
    (hrange : m.range = .atStartOf file) : Outcome (.ok m)

/-- What the rules say comes of locating a file does come of it. -/
theorem Outcome.ofFile_eq {r : Except NameError ModuleName} (h : Outcome root file extension r) :
    ofFile root file extension = r := by
  rcases h with h | ⟨hbelow, h⟩ | ⟨hfound, hparts⟩ | ⟨hfound, hparts, hrange⟩
  · exact ofFile_of_not_isPrefix h
  · exact ofFile_of_lacksExtension hbelow h
  · rw [ofFile_of_isFound hfound, filterMap_text?_partComponents _ hfound.stem_ne_nil, hparts]
    rfl
  · have hproper := hfound.isProper_partsRead_iff.mpr (hparts ▸ ModuleName.parts_ne_nil _)
    rw [ofFile_of_isFound hfound, filterMap_text?_partComponents _ hfound.stem_ne_nil]
    exact ofParts_eq_ok_iff.mpr ⟨hproper, hparts, hrange⟩

/-- Of every file the rules say something. -/
theorem exists_outcome (root file : Path) (extension : Text) :
    ∃ r, Outcome root file extension r := by
  rcases outside_or_lacksExtension_or_isFound root file extension with
    houtside | ⟨below, hbelow, hlacks⟩ | ⟨dirs, stem, hfound⟩
  · exact ⟨_, .outsideRoot houtside⟩
  · exact ⟨_, .wrongExtension hbelow hlacks⟩
  · by_cases hparts : partsRead dirs stem = []
    · exact ⟨_, .noParts hfound hparts⟩
    · exact ⟨.ok ⟨.atStartOf file, partsRead dirs stem, hparts⟩, .located hfound rfl rfl⟩

/-- Locating a file follows the rules. -/
theorem ofFile_eq_iff {r : Except NameError ModuleName} :
    ofFile root file extension = r ↔ Outcome root file extension r := by
  constructor
  · rintro rfl
    obtain ⟨r, hr⟩ := exists_outcome root file extension
    rwa [hr.ofFile_eq]
  · exact Outcome.ofFile_eq

/-- A file is refused as lying outside the root exactly if its components do not begin with those of
the root. -/
theorem ofFile_eq_outsideRoot_iff {e : OutsideRoot} :
    ofFile root file extension = .error (.outsideRoot e) ↔
      e = ⟨root, file⟩ ∧ ¬ root.components <+: file.components := by
  rw [ofFile_eq_iff]
  constructor
  · rintro ⟨h⟩
    exact ⟨rfl, h⟩
  · rintro ⟨rfl, h⟩
    exact .outsideRoot h

/-- A file is refused for its extension exactly if it is below the root and lacks the extension
there. -/
theorem ofFile_eq_wrongExtension_iff {e : WrongExtension} :
    ofFile root file extension = .error (.wrongExtension e) ↔
      e = ⟨file, withoutDot extension⟩ ∧ ∃ below, file.components = root.components ++ below ∧
        LacksExtension (Utf8.encode (withoutDot extension)) below := by
  rw [ofFile_eq_iff]
  constructor
  · rintro (_ | ⟨hbelow, h⟩)
    exact ⟨rfl, _, hbelow, h⟩
  · rintro ⟨rfl, below, hbelow, h⟩
    exact .wrongExtension hbelow h

end Outcome

/-- A file is refused as lying outside the root exactly if its components do not begin with those of
the root. Otherwise it is refused for its extension exactly if nothing is left of the components
behind those of the root, or the last one is no entry, or an entry without the extension. Otherwise
the parts that are read of these components make up the module, which points at the start of the
file, or if there are none, that is the invariant that is broken there. -/
theorem ofFile_outcome (root file : Path) (extension : Text) :
    (∀ e, ofFile root file extension = .error (.outsideRoot e) ↔
        e = ⟨root, file⟩ ∧ ¬ root.components <+: file.components) ∧
      (∀ e, ofFile root file extension = .error (.wrongExtension e) ↔
        e = ⟨file, withoutDot extension⟩ ∧ ∃ below,
          file.components = root.components ++ below ∧
            LacksExtension (Utf8.encode (withoutDot extension)) below) ∧
      (∀ e, ofFile root file extension = .error (.broken e) ↔
        e = ⟨.someParts, .known file 0 0⟩ ∧ ∃ dirs stem,
          IsFound root file extension dirs stem ∧ partsRead dirs stem = []) ∧
      ∀ m, ofFile root file extension = .ok m ↔
        m.range = .known file 0 0 ∧ ∃ dirs stem,
          IsFound root file extension dirs stem ∧ m.parts = partsRead dirs stem := by
  refine ⟨fun e => ofFile_eq_outsideRoot_iff, fun e => ofFile_eq_wrongExtension_iff,
    fun e => ?_, fun m => ?_⟩
  · rw [ofFile_eq_iff]
    constructor
    · rintro (_ | _ | ⟨h, hparts⟩)
      exact ⟨rfl, _, _, h, hparts⟩
    · rintro ⟨rfl, dirs, stem, h, hparts⟩
      exact .noParts h hparts
  · rw [ofFile_eq_iff]
    constructor
    · rintro (_ | _ | _ | ⟨h, hparts, hrange⟩)
      exact ⟨hrange, _, _, h, hparts⟩
    · rintro ⟨hrange, dirs, stem, h, hparts⟩
      exact .located h hparts hrange

/-! ## The project root of any file -/

/-- The root of a module and a file is above the file. -/
theorem components_rootOf_isPrefix (m : ModuleName) (file : Path) :
    (m.rootOf file).components <+: file.components := by
  rw [rootOf, Path.components_ascend]
  exact List.take_prefix _ _

/-- The root of a module and any file has the components of the file but the last ones, one for each
part of the module or, if there are not as many, all but the root directory. So it has the file
below it, it starts at the top exactly if the file does, and under no extension is the file refused
as lying outside of it. -/
theorem rootOf_isAncestor (m : ModuleName) (file : Path) :
    (m.rootOf file).components = file.components.rdrop (min m.length file.depth) ∧
      (m.rootOf file).components <+: file.components ∧
      (m.rootOf file).isAbsolute = file.isAbsolute ∧
      ∀ extension e, ofFile (m.rootOf file) file extension ≠ .error (.outsideRoot e) := by
  refine ⟨Path.components_ascend m.length file, components_rootOf_isPrefix m file,
    Path.isAbsolute_ascend m.length file, ?_⟩
  intro extension e h
  obtain ⟨-, houtside⟩ := ofFile_eq_outsideRoot_iff.mp h
  exact houtside (components_rootOf_isPrefix m file)

/-! ## Files that are refused for the expected extension -/

end ModuleName

/-- The message names the expected extension as the one that was found exactly if the file has an
extension that is shown like it. -/
theorem WrongExtension.message_eq_iff {e : WrongExtension} :
    e.report.message = e.file.render ++ " has extension .".toList ++ e.expected ++
        ", expected .".toList ++ e.expected ↔
      ∃ found, e.file.extension? = some found ∧ Utf8.lossy found = e.expected := by
  have hfinding : e.finding = " has extension .".toList ++ e.expected ↔
      ∃ found, e.file.extension? = some found ∧ Utf8.lossy found = e.expected := by
    unfold finding
    cases e.file.extension? with
    | none => simp
    | some found => simp
  unfold report
  rw [List.append_left_inj, List.append_left_inj, List.append_assoc, List.append_right_inj,
    hfinding]

namespace ModuleName

/-- Below the root the extension is missing exactly if the file is the root, or is below it and does
not have the extension. -/
theorem lacksExtension_below_iff {root file : Path} {extension : List UInt8} :
    (∃ below, file.components = root.components ++ below ∧ LacksExtension extension below) ↔
      (file == root) = true ∨
        root.components <+: file.components ∧ file.extension? ≠ some extension := by
  rw [Path.beq_iff, ne_eq, Path.extension?_eq_some_iff, not_not]
  constructor
  · rintro ⟨below, hbelow, h⟩
    by_cases hnil : below = []
    · left
      rw [hbelow, hnil, List.append_nil]
    · right
      rw [hbelow, lacksExtension_append_iff hnil]
      exact ⟨List.prefix_append _ _, h⟩
  · rintro (hroot | ⟨⟨below, hbelow⟩, h⟩)
    · exact ⟨[], by rw [hroot, List.append_nil], .nothing⟩
    · refine ⟨below, hbelow.symm, ?_⟩
      by_cases hnil : below = []
      · rw [hnil]
        exact .nothing
      · rwa [← hbelow, lacksExtension_append_iff hnil] at h

/-- A file is refused for its extension although it has the expected one exactly if it has it and is
the root itself. The message says that it has the expected extension in this case, and if the file
below the root has an extension that is shown like the expected one without being it. -/
theorem wrongExtension_of_expected_iff (root file : Path) (extension : Text) :
    ((∃ e, ofFile root file extension = .error (.wrongExtension e) ∧
        e.file.extension? = some (Utf8.encode e.expected)) ↔
      (file == root) = true ∧ file.extension? = some (Utf8.encode (withoutDot extension))) ∧
    ((∃ e, ofFile root file extension = .error (.wrongExtension e) ∧
        e.report.message = e.file.render ++ " has extension .".toList ++ e.expected ++
          ", expected .".toList ++ e.expected) ↔
      ∃ found, file.extension? = some found ∧ Utf8.lossy found = withoutDot extension ∧
        ((file == root) = true ∨ root.components <+: file.components ∧
          found ≠ Utf8.encode (withoutDot extension))) := by
  simp only [ofFile_eq_wrongExtension_iff, lacksExtension_below_iff, WrongExtension.message_eq_iff]
  constructor
  · constructor
    · rintro ⟨e, ⟨rfl, hroot | ⟨-, hne⟩⟩, h⟩
      · exact ⟨hroot, h⟩
      · exact absurd h hne
    · rintro ⟨hroot, h⟩
      exact ⟨_, ⟨rfl, .inl hroot⟩, h⟩
  · constructor
    · rintro ⟨e, ⟨rfl, h⟩, found, hfound, hshown⟩
      rw [hfound, ne_eq, Option.some.injEq] at h
      exact ⟨found, hfound, hshown, h⟩
    · rintro ⟨found, hfound, hshown, h⟩
      refine ⟨_, ⟨rfl, ?_⟩, found, hfound, hshown⟩
      rwa [hfound, ne_eq, Option.some.injEq]

/-- A file that is taken for the root as well is refused for the extension that it has. -/
theorem ofFile_root_itself :
    let file := Path.ofText "a/x.lang".toList
    ∃ e, ofFile file file "lang".toList = .error (.wrongExtension e) ∧
      e.file.extension? = some (Utf8.encode e.expected) ∧
      e.report.message = "a/x.lang has extension .lang, expected .lang".toList := by
  intro file
  refine ⟨⟨file, "lang".toList⟩, ?_, ?_, ?_⟩
  · rfl
  · rfl
  · rfl

end ModuleName

end MixfixNames
