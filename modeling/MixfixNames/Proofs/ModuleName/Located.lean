/-
# Where the File of a Module Is

Both directions between modules and files, said in terms of components. A module whose parts can
name directory entries has a file that goes through these entries, `components_toFile`. A file is
located as a module exactly if it is found below the root under a name with the right extension,
`ofFile_eq_ok_iff`. The two agree as far as the components below the root are named by texts.
-/
import Mathlib.Data.List.Infix
import MixfixNames.ModuleName.File
import MixfixNames.Proofs.Path.Extension

namespace MixfixNames

open Component

namespace ModuleName

/-! ## Ordinary names -/

/-- A text that can name a directory entry. -/
def IsOrdinaryPart (part : Text) : Prop :=
  part ≠ [] ∧ part ≠ ['.'] ∧ part ≠ ['.', '.'] ∧ '/' ∉ part

instance (part : Text) : Decidable (IsOrdinaryPart part) :=
  inferInstanceAs (Decidable (_ ∧ _ ∧ _ ∧ _))

/-- A module name is ordinary if each of its parts can name a directory entry. -/
def IsOrdinary (m : ModuleName) : Prop := ∀ part ∈ m.parts, IsOrdinaryPart part

instance (m : ModuleName) : Decidable m.IsOrdinary :=
  inferInstanceAs (Decidable (∀ part ∈ m.parts, IsOrdinaryPart part))

/-- The octets of a text name an entry exactly if the text does. -/
theorem isEntryName_encode_iff {t : Text} : IsEntryName (Utf8.encode t) ↔ IsOrdinaryPart t := by
  have hdot : Utf8.encode ['.'] = [dot] := by decide
  have hdots : Utf8.encode ['.', '.'] = [dot, dot] := by decide
  constructor
  · rintro ⟨h₁, h₂, h₃, h₄⟩
    refine ⟨mt Utf8.encode_eq_nil_iff.mpr h₁, ?_, ?_, mt slash_mem_encode_iff.mpr h₄⟩
    · rintro rfl
      exact h₂ hdot
    · rintro rfl
      exact h₃ hdots
  · rintro ⟨h₁, h₂, h₃, h₄⟩
    refine ⟨mt Utf8.encode_eq_nil_iff.mp h₁, ?_, ?_, mt slash_mem_encode_iff.mp h₄⟩
    · rw [← hdot]
      exact fun h => h₂ (Utf8.encode_injective h)
    · rw [← hdots]
      exact fun h => h₃ (Utf8.encode_injective h)

/-- What is read of an entry's name can name an entry, even if the name is not text. -/
theorem isOrdinaryPart_lossy {name : List UInt8} (h : IsEntryName name) :
    IsOrdinaryPart (Utf8.lossy name) := by
  have hread : ∀ t : Text, Utf8.replacement ∉ t → Utf8.lossy name = t → name = Utf8.encode t := by
    rintro t ht rfl
    exact Utf8.eq_encode_of_lossy ht
  refine ⟨fun he => ?_, fun he => ?_, fun he => ?_, fun hm => ?_⟩
  · exact h.ne_nil (Utf8.lossy_eq_nil_iff.mp he)
  · exact h.ne_dot (hread _ (by decide) he)
  · exact h.ne_dot_dot (hread _ (by decide) he)
  · have hslash : slash ∈ String.utf8EncodeChar '/' := by decide
    exact h.slash_notMem (Utf8.mem_of_mem_utf8EncodeChar (by decide) hslash hm)

/-! ## From modules to files -/

theorem mem_withoutDot {c : Char} (hc : c ≠ '.') {extension : Text} :
    c ∈ withoutDot extension ↔ c ∈ extension := by
  cases extension with
  | nil => exact Iff.rfl
  | cons a s =>
    by_cases ha : a = '.'
    · rw [ha, withoutDot_dot, List.mem_cons, or_iff_right hc]
    · rw [withoutDot, if_neg ha]

/-- The name of a module's file is its last part, a full stop and the extension in octets, too. -/
theorem encode_fileText (m : ModuleName) (extension : Text) :
    Utf8.encode (m.fileText extension) =
      Utf8.encode m.last ++ dot :: Utf8.encode (withoutDot extension) := by
  rw [fileText, Utf8.encode_append, Utf8.encode_cons]
  rfl

theorem last_mem (m : ModuleName) : m.last ∈ m.parts := List.getLast_mem m.parts_ne_nil

theorem outer_subset (m : ModuleName) : m.outer ⊆ m.parts := List.dropLast_subset m.parts

/-- A file name can name an entry if the last part of the module can. -/
theorem isOrdinaryPart_fileText {m : ModuleName} {extension : Text}
    (hm : IsOrdinaryPart m.last) (he : '/' ∉ withoutDot extension) :
    IsOrdinaryPart (m.fileText extension) := by
  obtain ⟨h₁, h₂, -, h₄⟩ := hm
  unfold fileText
  generalize m.last = last at h₁ h₂ h₄
  refine ⟨by simp, ?_, ?_, ?_⟩
  · cases last with
    | nil => exact absurd rfl h₁
    | cons c last => simp
  · -- only a last part that is itself a full stop would leave two full stops
    rcases last with _ | ⟨c, _ | ⟨d, last⟩⟩
    · exact absurd rfl h₁
    · rintro he
      simp only [List.cons_append, List.nil_append, List.cons.injEq] at he
      exact h₂ (by rw [he.1])
    · simp
  · rw [List.mem_append, List.mem_cons, not_or, not_or]
    exact ⟨h₄, by decide, he⟩

/-- The file of an ordinary module goes through entries only, one for each part. -/
theorem components_toFile {m : ModuleName} {extension : Text} (hm : m.IsOrdinary)
    (he : '/' ∉ withoutDot extension) :
    (m.toFile extension).components =
      m.outer.map Component.ofText ++ [Component.ofText (m.fileText extension)] := by
  have houter : ∀ t ∈ m.outer, IsEntryName (Utf8.encode t) := fun t ht =>
    isEntryName_encode_iff.mpr (hm t (m.outer_subset ht))
  have hfile : IsEntryName (Utf8.encode (m.fileText extension)) :=
    isEntryName_encode_iff.mpr (isOrdinaryPart_fileText (hm _ m.last_mem) he)
  rw [toFile, Path.components_join_ofText hfile, Path.components_foldl_join houter,
    Path.components_empty, List.nil_append]

/-- The file of a module is as deep as the module has parts. -/
theorem length_components_toFile {m : ModuleName} {extension : Text} (hm : m.IsOrdinary)
    (he : '/' ∉ withoutDot extension) : (m.toFile extension).components.length = m.length := by
  rw [components_toFile hm he, length, ← m.outer_append_last]
  simp

/-- The file of a module does not lead through the root. -/
theorem root_notMem_components_toFile {m : ModuleName} {extension : Text} (hm : m.IsOrdinary)
    (he : '/' ∉ withoutDot extension) : Component.root ∉ (m.toFile extension).components := by
  rw [components_toFile hm he]
  simp [Component.ofText]

/-- Seen from any directory the file of an ordinary module is below that directory. -/
theorem components_join_toFile {m : ModuleName} {extension : Text} (hm : m.IsOrdinary)
    (he : '/' ∉ withoutDot extension) (p : Path) :
    (p.join (m.toFile extension)).components =
      p.components ++ (m.toFile extension).components := by
  apply Path.components_join_of_forall_normal
  intro c hc
  rw [components_toFile hm he, ← List.map_singleton, ← List.map_append, List.mem_map] at hc
  obtain ⟨t, -, rfl⟩ := hc
  exact ⟨_, rfl⟩

/-! ## From files to modules -/

/-- The file is found below the root, through the components `dirs` and under a name that is made
of `stem` and the extension. -/
structure IsFound (root file : Path) (extension : Text) (dirs : List Component)
    (stem : List UInt8) : Prop where
  /-- The file is below the root under this name. -/
  components_eq : file.components = root.components ++
    (dirs ++ [.normal (stem ++ dot :: Utf8.encode (withoutDot extension))])
  /-- The name is not all extension. -/
  stem_ne_nil : stem ≠ []
  /-- The extension contains no full stop. -/
  dot_notMem : '.' ∉ withoutDot extension

/-- The components that the parts of a module are read of: without the extension, the last one may
denote nothing. -/
def partComponents (dirs : List Component) (stem : List UInt8) : List Component :=
  dirs ++ (Component.ofPiece? stem).toList

/-- Of the last component below the root only the stem counts. -/
theorem partsBelow_concat (dirs : List Component) (c : Component) (stem : List UInt8) :
    partsBelow (dirs ++ [c]) stem = (partComponents dirs stem).filterMap Component.text? := by
  rw [partsBelow, List.dropLast_concat, partComponents]

section Found

variable {root file : Path} {extension : Text} {dirs : List Component} {stem : List UInt8}
  {m : ModuleName}

/-- A file that is not below the root is refused as such. -/
theorem ofFile_of_not_isPrefix (h : ¬ root.components <+: file.components) :
    ofFile root file extension = .error (.outsideRoot ⟨root, file⟩) := by
  have hnone : root.components.isPrefixOf? file.components = none := by
    rw [Option.eq_none_iff_forall_ne_some]
    intro below hbelow
    exact h ⟨below, List.isPrefixOf?_eq_some_iff_append_eq.mp hbelow⟩
  unfold ofFile
  rw [hnone]

/-- A file below the root is refused for its extension if it lacks the expected one. -/
theorem ofFile_of_lacksExtension {below : List Component}
    (hbelow : file.components = root.components ++ below)
    (h : LacksExtension (Utf8.encode (withoutDot extension)) below) :
    ofFile root file extension = .error (.wrongExtension ⟨file, withoutDot extension⟩) := by
  unfold ofFile
  rw [List.isPrefixOf?_eq_some_iff_append_eq.mpr hbelow.symm]
  simp only
  split
  · next stem found hname =>
    rw [if_neg]
    rintro rfl
    obtain ⟨name, hentry, hsplit⟩ := Option.map_eq_some_iff.mp hname
    obtain ⟨dirs, rfl⟩ := Path.entryAtEnd?_eq_some_iff.mp hentry
    have hext := snd_splitExtension_eq_some_iff.mp (congrArg Prod.snd hsplit)
    exact lacksExtension_iff.mp h dirs name rfl hext
  · rfl

/-- A file that is found is located as the module that the parts read of it make up. -/
theorem ofFile_of_isFound (h : IsFound root file extension dirs stem) :
    ofFile root file extension =
      ofParts (.atStartOf file) ((partComponents dirs stem).filterMap Component.text?) := by
  obtain ⟨hfile, hstem, hdot⟩ := h
  have hsplit := splitExtension_append hstem (mt dot_mem_encode_iff.mp hdot)
  have hentry : Path.entryAtEnd?
      (dirs ++ [.normal (stem ++ dot :: Utf8.encode (withoutDot extension))]) =
        some (stem ++ dot :: Utf8.encode (withoutDot extension)) :=
    Path.entryAtEnd?_eq_some_iff.mpr ⟨dirs, rfl⟩
  unfold ofFile
  rw [List.isPrefixOf?_eq_some_iff_append_eq.mpr hfile.symm]
  simp only [hentry, Option.map_some, hsplit, if_true, partsBelow_concat]

/-- A file that is below the root with the extension is found there. -/
theorem outside_or_lacksExtension_or_isFound (root file : Path) (extension : Text) :
    ¬ root.components <+: file.components ∨
      (∃ below, file.components = root.components ++ below ∧
        LacksExtension (Utf8.encode (withoutDot extension)) below) ∨
      ∃ dirs stem, IsFound root file extension dirs stem := by
  by_cases hprefix : root.components <+: file.components
  · obtain ⟨below, hbelow⟩ := hprefix
    by_cases hlacks : LacksExtension (Utf8.encode (withoutDot extension)) below
    · exact .inr (.inl ⟨below, hbelow.symm, hlacks⟩)
    · obtain ⟨dirs, name, rfl, hdot, stem, hstem, rfl⟩ := not_lacksExtension_iff.mp hlacks
      exact .inr (.inr ⟨dirs, stem, hbelow.symm, hstem, mt dot_mem_encode_iff.mpr hdot⟩)
  · exact .inl hprefix

/-- A file is located as a module exactly if it is found below the root and the parts that are
read of it make up that module. -/
theorem ofFile_eq_ok_iff :
    ofFile root file extension = .ok m ↔
      ∃ dirs stem, IsFound root file extension dirs stem ∧
        ofParts (.atStartOf file) ((partComponents dirs stem).filterMap Component.text?) =
          .ok m := by
  constructor
  · intro h
    rcases outside_or_lacksExtension_or_isFound root file extension with
      houtside | ⟨below, hbelow, hlacks⟩ | ⟨dirs, stem, hfound⟩
    · rw [ofFile_of_not_isPrefix houtside] at h
      cases h
    · rw [ofFile_of_lacksExtension hbelow hlacks] at h
      cases h
    · rw [ofFile_of_isFound hfound] at h
      exact ⟨dirs, stem, hfound, h⟩
  · rintro ⟨dirs, stem, hfound, h⟩
    rw [ofFile_of_isFound hfound, h]

/-- The file name that is found is the name of an entry. -/
theorem IsFound.isEntryName (h : IsFound root file extension dirs stem) :
    IsEntryName (stem ++ dot :: Utf8.encode (withoutDot extension)) := by
  apply Path.isEntryName_of_mem_components (p := file)
  rw [h.components_eq]
  simp

/-- An extension under which a file is found contains no separator. -/
theorem IsFound.slash_notMem (h : IsFound root file extension dirs stem) :
    '/' ∉ withoutDot extension := by
  intro hm
  have hs : slash ∈ Utf8.encode (withoutDot extension) := slash_mem_encode_iff.mpr hm
  exact h.isEntryName.slash_notMem
    (List.mem_append_right _ (List.mem_cons_of_mem _ hs))

/-- The entries among the components that parts are read of have names of entries. -/
theorem IsFound.isEntryName_of_mem {name : List UInt8}
    (h : IsFound root file extension dirs stem)
    (hn : .normal name ∈ partComponents dirs stem) : IsEntryName name := by
  rcases List.mem_append.mp hn with hn | hn
  · apply Path.isEntryName_of_mem_components (p := file)
    rw [h.components_eq]
    simp [hn]
  · rw [Option.mem_toList] at hn
    obtain ⟨rfl, h₁, h₂, h₃⟩ := ofPiece?_eq_normal_iff.mp hn
    exact isEntryName_of_append h.isEntryName h₁ h₂ h₃

/-- Every module that a file is located as is ordinary. -/
theorem isOrdinary_of_ofFile (h : ofFile root file extension = .ok m) : m.IsOrdinary := by
  obtain ⟨dirs, stem, hfound, hparts⟩ := ofFile_eq_ok_iff.mp h
  intro part hp
  rw [(parts_of_ofParts hparts).1, List.mem_filterMap] at hp
  obtain ⟨c, hc, ht⟩ := hp
  obtain ⟨name, rfl, rfl⟩ := text?_eq_some_iff.mp ht
  exact isOrdinaryPart_lossy (hfound.isEntryName_of_mem hc)

/-- The entries that texts name are read as these texts. -/
theorem filterMap_text?_map_ofText (ts : List Text) :
    (ts.map Component.ofText).filterMap Component.text? = ts := by
  have htext : Component.text? ∘ Component.ofText = some := by
    funext t
    exact text?_ofText t
  rw [List.filterMap_map, htext, List.filterMap_some]

/-- Entries that are named by texts are given by the texts that are read. -/
theorem map_ofText_filterMap_text? {cs : List Component}
    (h : ∀ c ∈ cs, ∃ t, c = Component.ofText t) :
    (cs.filterMap Component.text?).map Component.ofText = cs := by
  induction cs with
  | nil => rfl
  | cons c cs ih =>
    obtain ⟨t, rfl⟩ := h c List.mem_cons_self
    rw [List.filterMap_cons_some (text?_ofText t), List.map_cons,
      ih fun c hc => h c (List.mem_cons_of_mem _ hc)]

/-- Without its extension a file name that is text is text. -/
theorem IsFound.exists_eq_ofText (h : IsFound root file extension dirs stem)
    (ht : ∃ t, Component.normal (stem ++ dot :: Utf8.encode (withoutDot extension)) =
      Component.ofText t) : ∃ t, Component.normal stem = Component.ofText t := by
  obtain ⟨t, ht⟩ := ht
  rw [Component.ofText, Component.normal.injEq] at ht
  have hdot : dot ∉ Utf8.encode (withoutDot extension) := mt dot_mem_encode_iff.mp h.dot_notMem
  obtain ⟨u, hu⟩ := Utf8.exists_encode_of_append (c := '.') (by decide) (by decide) hdot ht.symm
  exact ⟨u, congrArg Component.normal hu⟩

/-- A file that is found is the file of an ordinary module exactly if it is found through the
entries that the parts name. -/
theorem IsFound.components_eq_iff (h : IsFound root file extension dirs stem)
    (hm : m.IsOrdinary) :
    file.components = root.components ++ (m.toFile extension).components ↔
      dirs ++ [.normal stem] = m.parts.map Component.ofText := by
  have hname : Component.normal (stem ++ dot :: Utf8.encode (withoutDot extension)) =
      Component.ofText (m.fileText extension) ↔
        Component.normal stem = Component.ofText m.last := by
    rw [Component.ofText, Component.ofText, encode_fileText, Component.normal.injEq,
      Component.normal.injEq, List.append_left_inj]
  rw [h.components_eq, List.append_right_inj, components_toFile hm h.slash_notMem,
    List.append_singleton_inj, hname, ← m.outer_append_last, List.map_append, List.map_singleton,
    List.append_singleton_inj]

end Found

end ModuleName

end MixfixNames
