/-
# Files That Share a Module

A located file need not be the file of the module that it is located as: below the root, components
that are no entries are passed over, and names that are not text are read as if they were. The main
statement, `join_toFile_beq_iff_isPlain`, says exactly which files are: those that are plain below
the root. Another file shares the module of a plain one only if it is not plain.
-/
import MixfixNames.Proofs.ModuleName.Located

namespace MixfixNames.ModuleName

open Component

/-- The file lies plainly below the root: every component behind those of the root is an entry
that is named by a text, and the file name without its extension is neither `.` nor `..`. -/
structure IsPlain (root file : Path) (extension : Text) : Prop where
  /-- Below the root there are only entries, and texts name them. -/
  entries : ∀ c ∈ file.components.drop root.components.length, ∃ t, c = Component.ofText t
  /-- The file name is not the extension behind `.`. -/
  ne_dot : file.fileName? ≠ some (Utf8.encode ('.' :: '.' :: withoutDot extension))
  /-- The file name is not the extension behind `..`. -/
  ne_dot_dot : file.fileName? ≠ some (Utf8.encode ('.' :: '.' :: '.' :: withoutDot extension))

section Found

variable {root file : Path} {extension : Text} {dirs : List Component} {stem : List UInt8}

/-- The file that is found is named by its stem and the extension. -/
theorem IsFound.fileName?_eq (h : IsFound root file extension dirs stem) :
    file.fileName? = some (stem ++ dot :: Utf8.encode (withoutDot extension)) := by
  rw [Path.fileName?, Path.entryAtEnd?_eq_some_iff, h.components_eq, ← List.append_assoc]
  exact ⟨_, rfl⟩

/-- Below the root are the directories and the file that is found through them. -/
theorem IsFound.drop_components (h : IsFound root file extension dirs stem) :
    file.components.drop root.components.length =
      dirs ++ [.normal (stem ++ dot :: Utf8.encode (withoutDot extension))] := by
  rw [h.components_eq, List.drop_left]

/-- The file name is the extension behind a text exactly if the text spells the stem. -/
theorem IsFound.fileName?_eq_iff (h : IsFound root file extension dirs stem) (t : Text) :
    file.fileName? = some (Utf8.encode (t ++ '.' :: withoutDot extension)) ↔
      stem = Utf8.encode t := by
  have hsep : Utf8.encode (t ++ '.' :: withoutDot extension) =
      Utf8.encode t ++ dot :: Utf8.encode (withoutDot extension) := by
    rw [Utf8.encode_append, Utf8.encode_cons]
    rfl
  rw [h.fileName?_eq, hsep, Option.some.injEq, List.append_left_inj]

/-- A file that is found is plain exactly if its directories and its stem are entries that are
named by texts. -/
theorem IsFound.isPlain_iff (h : IsFound root file extension dirs stem) :
    IsPlain root file extension ↔
      Component.ofPiece? stem = some (.normal stem) ∧
        ∀ c ∈ dirs ++ [.normal stem], ∃ t, c = Component.ofText t := by
  have hdot : file.fileName? = some (Utf8.encode ('.' :: '.' :: withoutDot extension)) ↔
      stem = [dot] := h.fileName?_eq_iff ['.']
  have hdots : file.fileName? =
      some (Utf8.encode ('.' :: '.' :: '.' :: withoutDot extension)) ↔ stem = [dot, dot] :=
    h.fileName?_eq_iff ['.', '.']
  constructor
  · rintro ⟨hentries, hne, hnes⟩
    rw [h.drop_components] at hentries
    refine ⟨ofPiece?_eq_normal_iff.mpr ⟨rfl, h.stem_ne_nil, mt hdot.mpr hne, mt hdots.mpr hnes⟩,
      fun c hc => ?_⟩
    rcases List.mem_append.mp hc with hd | hd
    · exact hentries c (List.mem_append_left _ hd)
    · rw [List.mem_singleton.mp hd]
      exact h.exists_eq_ofText (hentries _ (List.mem_append_right _ (List.mem_singleton_self _)))
  · rintro ⟨hpiece, htext⟩
    obtain ⟨-, -, hne, hnes⟩ := ofPiece?_eq_normal_iff.mp hpiece
    refine ⟨fun c hc => ?_, mt hdot.mp hne, mt hdots.mp hnes⟩
    rw [h.drop_components] at hc
    rcases List.mem_append.mp hc with hd | hd
    · exact htext c (List.mem_append_left _ hd)
    · obtain ⟨t, ht⟩ := htext _ (List.mem_append_right _ (List.mem_singleton_self _))
      rw [Component.ofText, Component.normal.injEq] at ht
      refine ⟨t ++ '.' :: withoutDot extension, ?_⟩
      rw [List.mem_singleton.mp hd, ht, Component.ofText, Utf8.encode_append, Utf8.encode_cons]
      rfl

end Found

/-- A located file is the file of its module exactly if it is plain below the root. -/
theorem join_toFile_components_eq_iff {root file : Path} {extension : Text} {m : ModuleName}
    (h : ofFile root file extension = .ok m) :
    (root.join (m.toFile extension)).components = file.components ↔
      IsPlain root file extension := by
  obtain ⟨dirs, stem, hfound, hparts⟩ := ofFile_eq_ok_iff.mp h
  have hm := isOrdinary_of_ofFile h
  have hp := (parts_of_ofParts hparts).1
  rw [components_join_toFile hm hfound.slash_notMem, eq_comm, hfound.components_eq_iff hm,
    hfound.isPlain_iff, hp]
  constructor
  · intro he
    have htext : ∀ c ∈ dirs ++ [.normal stem], ∃ t, c = Component.ofText t := by
      intro c hc
      rw [he, List.mem_map] at hc
      obtain ⟨t, -, rfl⟩ := hc
      exact ⟨t, rfl⟩
    refine ⟨?_, htext⟩
    obtain ⟨t, ht⟩ := htext (.normal stem) (by simp)
    -- the last part is ordinary, and the stem is what it is written as
    rw [← hp, ← m.outer_append_last, List.map_append, List.map_singleton,
      List.append_singleton_inj, Component.ofText, Component.normal.injEq] at he
    rw [he.2]
    exact (isEntryName_encode_iff.mpr (hm _ m.last_mem)).ofPiece?
  · rintro ⟨hpiece, htext⟩
    have hcomp : partComponents dirs stem = dirs ++ [.normal stem] := by
      rw [partComponents, hpiece, Option.toList_some]
    rw [hcomp, map_ofText_filterMap_text? htext]

/-- The file of a module depends on its parts only. -/
theorem toFile_congr {m n : ModuleName} (h : m.parts = n.parts) (extension : Text) :
    m.toFile extension = n.toFile extension := by
  obtain ⟨_, parts, _⟩ := m
  obtain ⟨_, _, _⟩ := n
  obtain rfl : parts = _ := h
  rfl

/-- A located file has the components of the root in front. It is the file of its module exactly if
it is plain below the root, and then another file with the same module is the same file exactly if
it is plain, too. -/
theorem join_toFile_beq_iff_isPlain {root file : Path} {extension : Text} {m : ModuleName}
    (h : ofFile root file extension = .ok m) :
    root.components <+: file.components ∧
      ((root.join (m.toFile extension) == file) = true ↔ IsPlain root file extension) ∧
      ∀ other n, ofFile root other extension = .ok n → (n == m) = true →
        IsPlain root file extension → ((file == other) = true ↔ IsPlain root other extension) := by
  refine ⟨?_, ?_, ?_⟩
  · obtain ⟨dirs, stem, hfound, -⟩ := ofFile_eq_ok_iff.mp h
    exact ⟨_, hfound.components_eq.symm⟩
  · rw [Path.beq_iff]
    exact join_toFile_components_eq_iff h
  · intro other n hn hnm hplain
    have hsame : n.toFile extension = m.toFile extension := toFile_congr (beq_iff.mp hnm) extension
    have hfile := (join_toFile_components_eq_iff h).mpr hplain
    rw [Path.beq_iff, ← join_toFile_components_eq_iff hn, hsame, hfile]

/-- A plain file with full stops in its names, and a root that begins with the directory that the
path starts from. -/
theorem isPlain_untidy :
    let root := Path.ofText "./a".toList
    let file := Path.ofText "./a//b.c/./x.y.lang".toList
    let m : ModuleName :=
      ⟨.atStartOf file, ["b.c".toList, "x.y".toList], List.cons_ne_nil _ _⟩
    ofFile root file ".lang".toList = .ok m ∧
      (root.join (m.toFile ".lang".toList) == file) = true ∧
      IsPlain root file ".lang".toList := by
  intro root file m
  have h : ofFile root file ".lang".toList = .ok m := by rfl
  have hjoin : (root.join (m.toFile ".lang".toList) == file) = true := by decide
  exact ⟨h, hjoin, (join_toFile_beq_iff_isPlain h).2.1.mp hjoin⟩

/-- A file beside the root is located as the module of a file below the root. -/
theorem ofFile_beside_root :
    let root := Path.ofText "a".toList
    let beside := Path.ofText "a/../x.lang".toList
    let below := Path.ofText "a/x.lang".toList
    ∃ m n, ofFile root beside "lang".toList = .ok m ∧ ofFile root below "lang".toList = .ok n ∧
      (m == n) = true ∧ (beside == below) = false ∧
      (root.join (m.toFile "lang".toList) == beside) = false := by
  intro root beside below
  refine ⟨⟨.atStartOf beside, [['x']], List.cons_ne_nil _ _⟩,
    ⟨.atStartOf below, [['x']], List.cons_ne_nil _ _⟩, ?_, ?_, ?_, ?_, ?_⟩
  · rfl
  · rfl
  · decide
  · decide
  · decide

end MixfixNames.ModuleName
