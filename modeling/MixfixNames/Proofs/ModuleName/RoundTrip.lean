/-
# Modules and Files Through the Project Root

Going up from a file by as many levels as its module has parts leads to the root under which the
file is located as the module. The main statement, `locates_rootOf_iff`, says exactly when: the
path ends with the file of the module, and the extension has no full stop inside. It holds of every
way to write the path.
-/
import MixfixNames.Proofs.ModuleName.Located
import MixfixNames.Proofs.Path.Ascent

namespace MixfixNames.ModuleName

open Component

/-- The file is located as the module. -/
def Locates (root file : Path) (extension : Text) (m : ModuleName) : Prop :=
  ∃ n, ofFile root file extension = .ok n ∧ (n == m) = true

/-- Parts of which none is empty make up a module. -/
theorem ofParts_of_isOrdinary {m : ModuleName} (hm : m.IsOrdinary) (range : SourceRange) :
    ofParts range m.parts = .ok (m.atRange range) := by
  have hempty : ¬m.parts.any List.isEmpty = true := by
    rw [List.any_eq_true]
    rintro ⟨part, hp, he⟩
    exact (hm part hp).1 (List.isEmpty_iff.mp he)
  rw [ofParts, dif_neg m.parts_ne_nil, if_neg hempty]
  rfl

/-- A file is located as an ordinary module exactly if its parts are read of it. -/
theorem locates_iff {root file : Path} {extension : Text} {m : ModuleName} (hm : m.IsOrdinary) :
    Locates root file extension m ↔
      ∃ dirs stem, IsFound root file extension dirs stem ∧
        (partComponents dirs stem).filterMap Component.text? = m.parts := by
  constructor
  · rintro ⟨n, hn, hnm⟩
    obtain ⟨dirs, stem, hfound, hparts⟩ := ofFile_eq_ok_iff.mp hn
    rw [beq_iff, (parts_of_ofParts hparts).1] at hnm
    exact ⟨dirs, stem, hfound, hnm⟩
  · rintro ⟨dirs, stem, hfound, hparts⟩
    refine ⟨m.atRange (.atStartOf file), ?_, beq_iff.mpr rfl⟩
    rw [ofFile_eq_ok_iff]
    refine ⟨dirs, stem, hfound, ?_⟩
    rw [hparts]
    exact ofParts_of_isOrdinary hm _

/-- The file of an ordinary module below a root is located as that module. -/
theorem locates_of_components_eq {root file : Path} {extension : Text} {m : ModuleName}
    (hm : m.IsOrdinary) (hs : '/' ∉ withoutDot extension) (hd : '.' ∉ withoutDot extension)
    (hf : file.components = root.components ++ (m.toFile extension).components) :
    Locates root file extension m := by
  have hlast : IsEntryName (Utf8.encode m.last) :=
    isEntryName_encode_iff.mpr (hm _ m.last_mem)
  rw [locates_iff hm]
  refine ⟨m.outer.map Component.ofText, Utf8.encode m.last, ⟨?_, hlast.ne_nil, hd⟩, ?_⟩
  · rw [hf, components_toFile hm hs, Component.ofText, encode_fileText]
  · have hparts : partComponents (m.outer.map Component.ofText) (Utf8.encode m.last) =
        m.parts.map Component.ofText := by
      rw [partComponents, hlast.ofPiece?, ← m.outer_append_last, List.map_append]
      rfl
    rw [hparts, filterMap_text?_map_ofText]

/-- If as many parts are read of a file as there are components below the root, then each of these
components is an entry that a part is read of. -/
theorem isSome_text?_of_length_le {dirs : List Component} {stem : List UInt8} {m : ModuleName}
    (hparts : (partComponents dirs stem).filterMap Component.text? = m.parts)
    (hlen : dirs.length + 1 ≤ m.length) :
    partComponents dirs stem = dirs ++ [.normal stem] ∧
      ∀ c ∈ partComponents dirs stem, c.text?.isSome = true := by
  have hle := List.length_filterMap_le Component.text? (partComponents dirs stem)
  rw [hparts] at hle
  -- a stem that denotes nothing would leave one part too few
  have hpiece : ∃ c, Component.ofPiece? stem = some c := by
    cases hc : Component.ofPiece? stem with
    | some c => exact ⟨c, rfl⟩
    | none =>
      rw [partComponents, hc, Option.toList_none, List.append_nil] at hle
      unfold length at hlen
      omega
  obtain ⟨c, hc⟩ := hpiece
  have hcomp : partComponents dirs stem = dirs ++ [c] := by
    rw [partComponents, hc, Option.toList_some]
  have hsome : ∀ c ∈ partComponents dirs stem, c.text?.isSome = true := by
    rw [← List.filterMap_length_eq_length]
    rw [hparts, hcomp, List.length_append, List.length_singleton]
    rw [hcomp, List.length_append, List.length_singleton] at hle
    unfold length at hlen
    omega
  refine ⟨?_, hsome⟩
  obtain ⟨t, ht⟩ := Option.isSome_iff_exists.mp (hsome c (by rw [hcomp]; simp))
  obtain ⟨name, rfl, -⟩ := text?_eq_some_iff.mp ht
  obtain ⟨rfl, -⟩ := ofPiece?_eq_normal_iff.mp hc
  exact hcomp

/-- Below the root of a file there are at most as many components as its module has parts. -/
theorem IsFound.length_le {file : Path} {extension : Text} {dirs : List Component}
    {stem : List UInt8} {m : ModuleName}
    (h : IsFound (m.rootOf file) file extension dirs stem) : dirs.length + 1 ≤ m.length := by
  have hlen := congrArg List.length h.components_eq
  rw [rootOf, Path.components_ascend, List.rdrop, List.length_append, List.length_append,
    List.length_singleton, List.length_take] at hlen
  omega

/-- A path that is text, located as a module under its root, goes from there to the file of the
module. -/
theorem components_eq_of_locates {s : Text} {extension : Text} {m : ModuleName}
    (hm : m.IsOrdinary)
    (h : Locates (m.rootOf (.ofText s)) (.ofText s) extension m) :
    '.' ∉ withoutDot extension ∧ (Path.ofText s).components =
      (m.rootOf (.ofText s)).components ++ (m.toFile extension).components := by
  obtain ⟨dirs, stem, hfound, hparts⟩ := (locates_iff hm).mp h
  obtain ⟨hcomp, hsome⟩ := isSome_text?_of_length_le hparts hfound.length_le
  have htext : ∀ c ∈ dirs ++ [.normal stem], ∃ t, c = Component.ofText t := by
    intro c hc
    -- the directories are components of the path itself, the stem is what is left of the last one
    rcases List.mem_append.mp hc with hd | hd
    · obtain ⟨t, ht⟩ := Option.isSome_iff_exists.mp (hsome c (hcomp ▸ hc))
      obtain ⟨name, rfl, -⟩ := text?_eq_some_iff.mp ht
      have hmem : .normal name ∈ (Path.ofText s).components := by
        rw [hfound.components_eq]
        simp [hd]
      obtain ⟨u, rfl⟩ := Path.exists_eq_encode_of_mem_components hmem
      exact ⟨u, rfl⟩
    · rw [List.mem_singleton] at hd
      subst hd
      apply hfound.exists_eq_ofText
      have hmem : .normal (stem ++ dot :: Utf8.encode (withoutDot extension)) ∈
          (Path.ofText s).components := by
        rw [hfound.components_eq]
        simp
      obtain ⟨u, hu⟩ := Path.exists_eq_encode_of_mem_components hmem
      exact ⟨u, congrArg Component.normal hu⟩
  refine ⟨hfound.dot_notMem, (hfound.components_eq_iff hm).mpr ?_⟩
  rw [← hparts, hcomp, map_ofText_filterMap_text? htext]

/-- Going up from the file of an ordinary module leads to where the file is seen from. -/
theorem components_rootOf {file : Path} {cs : List Component} {extension : Text} {m : ModuleName}
    (hm : m.IsOrdinary) (hs : '/' ∉ withoutDot extension)
    (h : file.components = cs ++ (m.toFile extension).components) :
    (m.rootOf file).components = cs := by
  rw [rootOf, ← length_components_toFile hm hs]
  exact Path.components_ascend_length h (root_notMem_components_toFile hm hs)

/-- A path that is text is located as an ordinary module under its root exactly if the path ends
with the file of the module and the extension has no full stop inside. From every directory, be
it text or not, the file of the module leads back to the directory, and is located there. -/
theorem locates_rootOf_iff {m : ModuleName} {extension : Text} (hm : m.IsOrdinary)
    (he : '/' ∉ extension) :
    (∀ s : Text, Locates (m.rootOf (.ofText s)) (.ofText s) extension m ↔
      '.' ∉ withoutDot extension ∧
        (m.toFile extension).components <:+ (Path.ofText s).components) ∧
    ∀ base : Path, (m.rootOf (base.join (m.toFile extension)) == base) = true ∧
      ('.' ∉ withoutDot extension →
        Locates (m.rootOf (base.join (m.toFile extension))) (base.join (m.toFile extension))
          extension m ∧
        Locates base (base.join (m.toFile extension)) extension m) := by
  have hs : '/' ∉ withoutDot extension := mt (mem_withoutDot (by decide)).mp he
  constructor
  · intro s
    constructor
    · intro h
      obtain ⟨hd, hc⟩ := components_eq_of_locates hm h
      exact ⟨hd, _, hc.symm⟩
    · rintro ⟨hd, cs, hc⟩
      apply locates_of_components_eq hm hs hd
      rw [components_rootOf hm hs hc.symm]
      exact hc.symm
  · intro base
    have hc := components_join_toFile hm hs base
    have hroot := components_rootOf hm hs hc
    refine ⟨Path.beq_iff.mpr hroot, fun hd => ⟨?_, locates_of_components_eq hm hs hd hc⟩⟩
    apply locates_of_components_eq hm hs hd
    rw [hroot, hc]

/-- A path with doubled and trailing separators, and a file name with a full stop in its stem. -/
theorem locates_rootOf_untidy :
    let m : ModuleName := ⟨.unknown, [['A'], ['b', '.', 'c']], List.cons_ne_nil _ _⟩
    let file : Text := "./x//A/./b.c.lang/".toList
    let extension : Text := ".lang".toList
    m.IsOrdinary ∧ '/' ∉ extension ∧
      Locates (m.rootOf (.ofText file)) (.ofText file) extension m := by
  intro m file extension
  have hm : m.IsOrdinary := by decide
  have he : '/' ∉ extension := by decide
  refine ⟨hm, he, ((locates_rootOf_iff hm he).1 file).mpr ⟨?_, ?_⟩⟩
  · decide
  · decide

end MixfixNames.ModuleName
