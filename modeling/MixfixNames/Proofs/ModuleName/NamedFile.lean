/-
# The Files of Modules That Are Read from Text

A module name that is read from a dotted text has parts without full stops, none of them empty, so
each part can name a directory entry unless a path separator stands in it. The main statement,
`toFile_of_parse_iff`, says what the file of the module is then, and that a separator in the text is
all that can spoil it: the parts are no longer the entries that the path goes through, and if a part
starts with a separator, the file is the same from everywhere.
-/
import MixfixNames.Proofs.ModuleName.Built

namespace MixfixNames

open Component

theorem Component.ofText_injective : Function.Injective Component.ofText := by
  intro t u h
  rw [Component.ofText, Component.ofText, Component.normal.injEq] at h
  exact Utf8.encode_injective h

namespace ModuleName

/-! ## Names that are read from text -/

section Parse

variable {range : SourceRange} {s : Text} {m : ModuleName}

/-- A name that is read from a text has the pieces of the text as its parts. -/
theorem parts_of_parse (h : parse range s = .ok m) :
    IsProper m.parts ∧ m.parts = s.splitOn QualifiedName.separator := by
  obtain ⟨hproper, hparts, -⟩ := ofParts_eq_ok_iff.mp h
  have hs : s ≠ [] := by
    rintro rfl
    exact hproper.ne_nil rfl
  rw [partsOfText, if_neg hs] at hparts hproper
  exact ⟨hparts ▸ hproper, hparts⟩

/-- The parts of such a name can name entries exactly if there is no separator in the text. -/
theorem isOrdinary_iff_of_parse (h : parse range s = .ok m) : m.IsOrdinary ↔ '/' ∉ s := by
  obtain ⟨hproper, hparts⟩ := parts_of_parse h
  have hsep : '/' ≠ QualifiedName.separator := by decide
  rw [← Sequence.exists_mem_splitOn_iff hsep, ← hparts]
  constructor
  · rintro hm ⟨part, hp, hslash⟩
    exact (hm part hp).2.2.2 hslash
  · intro hslash part hp
    have hdot : '.' ∉ part := Sequence.not_mem_of_mem_splitOn (hparts ▸ hp)
    refine ⟨?_, ?_, ?_, fun hm => hslash ⟨part, hp, hm⟩⟩
    · rintro rfl
      exact hproper.nil_notMem hp
    · rintro rfl
      exact hdot List.mem_cons_self
    · rintro rfl
      exact hdot List.mem_cons_self

end Parse

/-! ## Files of modules -/

section Files

variable {m n : ModuleName} {extension : Text}

/-- A file goes through the parts of its module as entries only if they can name entries. -/
theorem slash_notMem_of_components_toFile
    (h : (m.toFile extension).components =
      m.outer.map Component.ofText ++ [Component.ofText (m.fileText extension)]) :
    ∀ part ∈ m.parts, '/' ∉ part := by
  have hentry : ∀ t ∈ m.outer ++ [m.fileText extension], '/' ∉ t := by
    intro t ht
    have hmem : Component.ofText t ∈ (m.toFile extension).components := by
      rw [h, ← List.map_singleton, ← List.map_append]
      exact List.mem_map_of_mem ht
    exact mt slash_mem_encode_iff.mpr (Path.isEntryName_of_mem_components hmem).slash_notMem
  intro part hp
  rw [← m.outer_append_last, List.mem_append, List.mem_singleton] at hp
  rcases hp with hp | rfl
  · exact hentry part (List.mem_append_left _ hp)
  · -- the last part stands in the file name
    intro hslash
    exact hentry _ (List.mem_append_right _ (List.mem_singleton_self _))
      (List.mem_append_left _ hslash)

/-- The path of a file starts at the top exactly if a part of the module starts with a separator. -/
theorem isAbsolute_toFile_iff :
    (m.toFile extension).isAbsolute = true ↔ ∃ part ∈ m.parts, part.head? = some '/' := by
  have hlast : (m.fileText extension).head? = some '/' ↔ m.last.head? = some '/' := by
    rw [fileText]
    cases m.last <;> simp
  have hempty : Path.empty.isAbsolute = false := rfl
  rw [toFile, Path.isAbsolute_join, Path.isAbsolute_foldl_join, hempty, Bool.false_or,
    Bool.or_eq_true, Path.isAbsolute_ofText_iff, hlast, List.any_eq_true, ← m.outer_append_last]
  simp [Path.isAbsolute_ofText_iff, or_and_right, exists_or]

/-- Ordinary modules with the same file are the same module. -/
theorem toFile_beq_iff (hm : m.IsOrdinary) (hn : n.IsOrdinary) (he : '/' ∉ withoutDot extension) :
    (m.toFile extension == n.toFile extension) = true ↔ (m == n) = true := by
  rw [Path.beq_iff, components_toFile hm he, components_toFile hn he, List.append_singleton_inj,
    Component.ofText_injective.eq_iff, (List.map_injective_iff.mpr ofText_injective).eq_iff,
    fileText, fileText, List.append_left_inj, beq_iff, ← m.outer_append_last, ← n.outer_append_last,
    List.append_singleton_inj]

end Files

/-- A module name that is read from a text has a file that goes through its parts as entries, the
last one with the extension behind it, exactly if there is no path separator in the text. Then the
path is relative, has as many components as the name has parts, and adds them to every directory.
Otherwise it still leads on below every directory unless a part starts with a separator. Names whose
texts have no separators have the same file only if they are the same. -/
theorem toFile_of_parse_iff {range : SourceRange} {s extension : Text} {m : ModuleName}
    (h : parse range s = .ok m) (he : '/' ∉ extension) :
    ((m.toFile extension).components =
        m.outer.map Component.ofText ++ [Component.ofText (m.fileText extension)] ↔ '/' ∉ s) ∧
      ('/' ∉ s → (m.toFile extension).isAbsolute = false ∧
        (m.toFile extension).components.length = m.length ∧
        ∀ base : Path, (base.join (m.toFile extension)).components =
          base.components ++ (m.toFile extension).components) ∧
      ((∀ base : Path, base.components <+: (base.join (m.toFile extension)).components) ↔
        ∀ part ∈ m.parts, part.head? ≠ some '/') ∧
      ∀ range' s' n, parse range' s' = .ok n → '/' ∉ s → '/' ∉ s' →
        ((m.toFile extension == n.toFile extension) = true ↔ (m == n) = true) := by
  have hs : '/' ∉ withoutDot extension := mt (mem_withoutDot (by decide)).mp he
  have hordinary := isOrdinary_iff_of_parse h
  have habsolute : (m.toFile extension).isAbsolute = false ↔
      ∀ part ∈ m.parts, part.head? ≠ some '/' := by
    rw [← Bool.not_eq_true, isAbsolute_toFile_iff]
    simp
  refine ⟨⟨?_, ?_⟩, ?_, ?_, ?_⟩
  · intro hcomp hslash
    have hsep : '/' ≠ QualifiedName.separator := by decide
    obtain ⟨part, hp, hm⟩ := (Sequence.exists_mem_splitOn_iff hsep).mpr hslash
    rw [← (parts_of_parse h).2] at hp
    exact slash_notMem_of_components_toFile hcomp part hp hm
  · exact fun hslash => components_toFile (hordinary.mpr hslash) hs
  · intro hslash
    have hm := hordinary.mpr hslash
    refine ⟨habsolute.mpr fun part hp hhead => ?_, length_components_toFile hm hs,
      components_join_toFile hm hs⟩
    exact (hm part hp).2.2.2 (List.mem_of_head? hhead)
  · rw [Path.forall_isPrefix_join_iff, habsolute]
  · intro range' s' n hn hslash hslash'
    exact toFile_beq_iff (hordinary.mpr hslash) ((isOrdinary_iff_of_parse hn).mpr hslash') hs

/-- Three parts, one of them with characters of several octets, and an extension in two. -/
theorem toFile_of_parse_three_parts :
    let s : Text := "Data.Ω₀._+_".toList
    let extension : Text := ".lang.md".toList
    let m : ModuleName :=
      ⟨.unknown, ["Data".toList, "Ω₀".toList, "_+_".toList], List.cons_ne_nil _ _⟩
    parse .unknown s = .ok m ∧ '/' ∉ extension ∧
      (m.toFile extension).components =
        ["Data".toList, "Ω₀".toList, "_+_.lang.md".toList].map Component.ofText := by
  intro s extension m
  have h : parse .unknown s = .ok m := by rfl
  have he : '/' ∉ extension := by decide
  have hs : '/' ∉ s := by decide
  exact ⟨h, he, (toFile_of_parse_iff h he).1.mpr hs⟩

/-- A part with a separator inside is two directory entries, and its module has the file of another
one; a part with a separator in front leads away from every directory. -/
theorem toFile_of_separator_in_part :
    let extension : Text := "lang".toList
    ∃ inside nested front, parse .unknown "A/B".toList = .ok inside ∧
      parse .unknown "A.B".toList = .ok nested ∧ parse .unknown "/B".toList = .ok front ∧
      inside.length = 1 ∧ (inside.toFile extension).components.length = 2 ∧
      (inside == nested) = false ∧
      (inside.toFile extension == nested.toFile extension) = true ∧
      ((Path.ofText "src".toList).join (front.toFile extension) ==
        Path.ofText "/B.lang".toList) = true := by
  refine ⟨⟨.unknown, ["A/B".toList], List.cons_ne_nil _ _⟩,
    ⟨.unknown, [['A'], ['B']], List.cons_ne_nil _ _⟩,
    ⟨.unknown, ["/B".toList], List.cons_ne_nil _ _⟩, ?_, ?_, ?_, ?_, ?_, ?_, ?_, ?_⟩
  · rfl
  · rfl
  · rfl
  · rfl
  · decide
  · decide
  · decide
  · decide

end ModuleName

end MixfixNames
