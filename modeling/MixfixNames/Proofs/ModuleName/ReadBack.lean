/-
# Reading a Module Name Back

A module name is written with a full stop between each two parts and read by cutting the text at
each full stop, so a part that contains one is read as several. The names of directories and files
may contain full stops, and therefore a module that is found from a file need not be what its
written name denotes. The main statement, `parse_render_iff_isUndotted`, says that it is exactly if
no part contains a full stop, and that such modules are told apart by their written names.
-/
import MixfixNames.CommandLine.Answer
import MixfixNames.Proofs.ModuleName.Built
import MixfixNames.Proofs.ModuleName.Collision

namespace MixfixNames

open QualifiedName (separator)

/-- What is joined by a separator is cut there, and at the separators that were in it before. -/
theorem Sequence.splitOn_intercalate_eq_flatMap {α : Type} [DecidableEq α] (sep : α)
    {pieces : List (List α)} (h : pieces ≠ []) :
    ([sep].intercalate pieces).splitOn sep = pieces.flatMap (List.splitOn sep) := by
  induction pieces with
  | nil => exact absurd rfl h
  | cons piece rest ih =>
    cases rest with
    | nil => simp
    | cons next rest =>
      rw [List.intercalate_cons_cons, List.append_assoc, List.singleton_append,
        List.splitOn_append_cons_self, ih (List.cons_ne_nil _ _)]
      rfl

namespace ModuleName

/-- No part contains the full stop that separates parts. -/
def IsUndotted (m : ModuleName) : Prop := ∀ part ∈ m.parts, separator ∉ part

instance (m : ModuleName) : Decidable m.IsUndotted :=
  inferInstanceAs (Decidable (∀ part ∈ m.parts, separator ∉ part))

/-! ## Cutting what was written -/

theorem render_ne_nil {m : ModuleName} (hm : IsProper m.parts) : m.render ≠ [] := by
  obtain ⟨hne, hnil⟩ := hm
  unfold render Text.join
  rcases hp : m.parts with _ | ⟨part, _ | ⟨next, rest⟩⟩
  · exact absurd hp hne
  · rintro he
    rw [List.intercalate_singleton] at he
    exact hnil (by rw [hp, he]; exact List.mem_singleton_self _)
  · simp [List.intercalate_cons_cons]

/-- The written name is read as the parts, each of them cut at its full stops. -/
theorem parse_render {m : ModuleName} (hm : IsProper m.parts) (range : SourceRange) :
    parse range m.render = ofParts range (m.parts.flatMap (List.splitOn separator)) := by
  rw [parse, partsOfText, if_neg (render_ne_nil hm), render, Text.join,
    Sequence.splitOn_intercalate_eq_flatMap separator hm.ne_nil]

/-- Cutting at full stops leaves exactly undotted parts as they are. -/
theorem flatMap_splitOn_eq_iff {m : ModuleName} :
    m.parts.flatMap (List.splitOn separator) = m.parts ↔ m.IsUndotted := by
  constructor
  · intro h part hp
    -- every part is then a piece of a part, and pieces are what stands between separators
    rw [← h, List.mem_flatMap] at hp
    obtain ⟨_, -, hpiece⟩ := hp
    exact Sequence.not_mem_of_mem_splitOn hpiece
  · intro h
    rw [List.flatMap_congr fun part hp => List.splitOn_eq_singleton (h part hp)]
    simp

/-- A module name with proper parts is read back exactly if its parts are undotted. -/
theorem exists_parse_render_iff {m : ModuleName} (hm : IsProper m.parts) (range : SourceRange) :
    (∃ n, parse range m.render = .ok n ∧ (n == m) = true) ↔ m.IsUndotted := by
  rw [← flatMap_splitOn_eq_iff, parse_render hm]
  constructor
  · rintro ⟨n, hn, hnm⟩
    rw [← (parts_of_ofParts hn).1]
    exact beq_iff.mp hnm
  · intro h
    rw [h]
    exact ⟨m.atRange range, ofParts_eq_ok_iff.mpr ⟨hm, rfl, rfl⟩, beq_iff.mpr rfl⟩

/-! ## Located modules -/

open CommandLine (answer)

/-- The root depends on the parts of the module alone. -/
theorem rootOf_congr {m n : ModuleName} (h : m.parts = n.parts) (file : Path) :
    m.rootOf file = n.rootOf file := by
  unfold rootOf length
  rw [h]

/-- Every question about a module is answered alike under a name that is read as that module. -/
theorem answer_of_parse {m n : ModuleName} {name : Text} (h : parse .unknown name = .ok n)
    (hnm : (n == m) = true) (extension : Text) :
    answer ⟨extension, .fileOf name⟩ = .ok (m.toFile extension).render ∧
      ∀ file, answer ⟨extension, .rootOf name file⟩ = .ok (m.rootOf file).render := by
  have hparts := beq_iff.mp hnm
  constructor
  · show (parse .unknown name).map (fun k => (k.toFile extension).render) = _
    rw [h, ← toFile_congr hparts]
    rfl
  · intro file
    show (parse .unknown name).map (fun k => (k.rootOf file).render) = _
    rw [h, ← rootOf_congr hparts]
    rfl

/-- The written name of a located module is read back as that module exactly if no part contains a
full stop. Under that name, which is what the program prints for the file, it then finds the file
and the root of the module. Of two modules that are located and have no full stop in a part, the
written names agree only if the modules do. -/
theorem parse_render_iff_isUndotted {root file : Path} {extension : Text} {m : ModuleName}
    (h : ofFile root file extension = .ok m) :
    (∀ range, (∃ n, parse range m.render = .ok n ∧ (n == m) = true) ↔ m.IsUndotted) ∧
      answer ⟨extension, .moduleOf root file⟩ = .ok m.render ∧
      (m.IsUndotted → ∀ e, answer ⟨e, .fileOf m.render⟩ = .ok (m.toFile e).render ∧
        ∀ f, answer ⟨e, .rootOf m.render f⟩ = .ok (m.rootOf f).render) ∧
      ∀ root' file' extension' n, ofFile root' file' extension' = .ok n →
        m.IsUndotted → n.IsUndotted → (m.render = n.render ↔ (m == n) = true) := by
  have hm := isProper_of_ofFile h
  refine ⟨exists_parse_render_iff hm, ?_, ?_, ?_⟩
  · show (ofFile root file extension).map render = _
    rw [h]
    rfl
  · intro hundotted e
    obtain ⟨n, hn, hnm⟩ := (exists_parse_render_iff hm .unknown).mpr hundotted
    exact answer_of_parse hn hnm e
  · intro root' file' extension' n hn hum hun
    constructor
    · intro hr
      obtain ⟨m', hm', hmm⟩ := (exists_parse_render_iff hm .unknown).mpr hum
      obtain ⟨n', hn', hnn⟩ := (exists_parse_render_iff (isProper_of_ofFile hn) .unknown).mpr hun
      rw [hr, hn', Except.ok.injEq] at hm'
      rw [beq_iff, ← beq_iff.mp hmm, ← hm', beq_iff.mp hnn]
    · intro hmn
      rw [render, render, beq_iff.mp hmn]

/-- A module in a directory, below a root at the top, by a path with doubled separators. -/
theorem parse_render_nested :
    let root := Path.ofText "/src".toList
    let file := Path.ofText "//src/Data//./List.lang".toList
    let m : ModuleName := ⟨.atStartOf file, ["Data".toList, "List".toList], List.cons_ne_nil _ _⟩
    ofFile root file ".lang".toList = .ok m ∧ m.IsUndotted ∧
      ∃ n, parse .unknown "Data.List".toList = .ok n ∧ (n == m) = true := by
  intro root file m
  have h : ofFile root file ".lang".toList = .ok m := by rfl
  have hu : m.IsUndotted := by decide
  exact ⟨h, hu, ((parse_render_iff_isUndotted h).1 .unknown).mpr hu⟩

/-- A directory with a full stop in its name, and two nested ones: the modules of the files in them
are different and have the same written name, which is read as neither of the first. -/
theorem render_of_dotted_directory :
    let root := Path.ofText "a".toList
    let dotted := Path.ofText "a/b.c/x.lang".toList
    let nested := Path.ofText "a/b/c/x.lang".toList
    ∃ m n, ofFile root dotted "lang".toList = .ok m ∧ ofFile root nested "lang".toList = .ok n ∧
      m.render = n.render ∧ (m == n) = false ∧
      ∀ range k, parse range m.render = .ok k → (k == m) = false := by
  intro root dotted nested
  refine ⟨⟨.atStartOf dotted, ["b.c".toList, ['x']], List.cons_ne_nil _ _⟩,
    ⟨.atStartOf nested, [['b'], ['c'], ['x']], List.cons_ne_nil _ _⟩, ?_, ?_, ?_, ?_, ?_⟩
  · rfl
  · rfl
  · decide
  · decide
  · intro range k hk
    have hparts : k.parts = [['b'], ['c'], ['x']] := (parts_of_ofParts hk).1
    rw [Bool.eq_false_iff, ne_eq, beq_iff, hparts]
    decide

end ModuleName

end MixfixNames
