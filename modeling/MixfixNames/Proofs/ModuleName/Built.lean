/-
# How Module Names Come About

A module name is made of parts, read from a dotted text, taken from a qualified name or found from
a file, and after that only its range can change. All of these ways but one refuse empty parts. The
main statement, `built_isProper_iff`, says that the one that does not is the only source of them:
a module name has an empty part only if it was taken from a qualified name with a segment of which
nothing is printed. For dotted texts this is exactly where reading a module name fails.
-/
import MixfixNames.Proofs.ModuleName.Located

namespace MixfixNames

/-! ## Segments of which nothing is printed -/

namespace Name

/-- The name is an identifier without a hole and without a token that shows. -/
def IsBlank (x : Name) : Prop :=
  ∃ parts, x.identity = .identifier parts ∧ ∀ p ∈ parts, p = .token []

/-- Nothing is printed of blank names, and of no others. -/
theorem render_eq_nil_iff {x : Name} : x.render = [] ↔ x.IsBlank := by
  obtain ⟨identity, range⟩ := x
  have hpart : ∀ p : Part, p.render = [] ↔ p = .token [] := by
    intro p
    cases p <;> simp [Part.render]
  cases identity with
  | anonymous id => simp [render, shownParts, Part.renderAll, Part.render, IsBlank]
  | identifier parts => simp [render, shownParts, Part.renderAll, IsBlank, hpart]

end Name

namespace ModuleName

/-! ## Proper parts -/

/-- The parts that a module name should have: there is one, and none is empty. -/
structure IsProper (parts : List Text) : Prop where
  /-- There is a part. -/
  ne_nil : parts ≠ []
  /-- No part is empty. -/
  nil_notMem : [] ∉ parts

/-- Exactly the proper parts make up a module name. -/
theorem ofParts_eq_ok_iff {range : SourceRange} {parts : List Text} {m : ModuleName} :
    ofParts range parts = .ok m ↔ IsProper parts ∧ m.parts = parts ∧ m.range = range := by
  have hany : parts.any List.isEmpty = true ↔ [] ∈ parts := by
    simp [List.any_eq_true]
  constructor
  · intro h
    refine ⟨?_, parts_of_ofParts h⟩
    unfold ofParts at h
    split at h
    · cases h
    · next hne =>
      split at h
      · cases h
      · next hempty => exact ⟨hne, mt hany.mpr hempty⟩
  · rintro ⟨⟨hne, hempty⟩, rfl, rfl⟩
    rw [ofParts, dif_neg hne, if_neg (mt hany.mp hempty)]

/-- Made of parts, a module name is proper. -/
theorem isProper_of_ofParts {range : SourceRange} {parts : List Text} {m : ModuleName}
    (h : ofParts range parts = .ok m) : IsProper m.parts := by
  obtain ⟨hproper, rfl, -⟩ := ofParts_eq_ok_iff.mp h
  exact hproper

/-- So is a module name that was located. -/
theorem isProper_of_ofFile {root file : Path} {extension : Text} {m : ModuleName}
    (h : ofFile root file extension = .ok m) : IsProper m.parts := by
  obtain ⟨dirs, stem, -, hparts⟩ := ofFile_eq_ok_iff.mp h
  exact isProper_of_ofParts hparts

/-- The module name that is taken from a qualified name is proper unless a segment is blank. -/
theorem isProper_ofQualified_iff {q : QualifiedName} :
    IsProper (ofQualified q).parts ↔ ∀ x ∈ q.segments, ¬x.IsBlank := by
  have hmem : [] ∈ (ofQualified q).parts ↔ ∃ x ∈ q.segments, x.IsBlank := by
    simp only [ofQualified, List.mem_map, Name.render_eq_nil_iff]
  constructor
  · rintro ⟨-, hnil⟩ x hx hblank
    exact hnil (hmem.mpr ⟨x, hx, hblank⟩)
  · intro h
    refine ⟨(ofQualified q).parts_ne_nil, fun hnil => ?_⟩
    obtain ⟨x, hx, hblank⟩ := hmem.mp hnil
    exact h x hx hblank

/-! ## Calls -/

/-- The module names that come out of calls of the library in any order, if module names are taken
from qualified names in `P` only. A copy of a module name is the module name itself. -/
inductive Built (P : QualifiedName → Prop) : ModuleName → Prop where
  /-- The name is made of parts. -/
  | ofParts {range : SourceRange} {parts : List Text} {m : ModuleName}
    (h : ModuleName.ofParts range parts = .ok m) : Built P m
  /-- The name is read from a dotted text. -/
  | parse {range : SourceRange} {dotted : Text} {m : ModuleName}
    (h : ModuleName.parse range dotted = .ok m) : Built P m
  /-- The name is taken from a qualified name. -/
  | ofQualified {q : QualifiedName} (h : P q) : Built P (ModuleName.ofQualified q)
  /-- The name is found from a file. -/
  | ofFile {root file : Path} {extension : Text} {m : ModuleName}
    (h : ModuleName.ofFile root file extension = .ok m) : Built P m
  /-- The name is put at another range. -/
  | atRange {m : ModuleName} (h : Built P m) (range : SourceRange) : Built P (m.atRange range)
  /-- The range of the name is erased. -/
  | eraseRange {m : ModuleName} (h : Built P m) : Built P m.eraseRange

/-- If no qualified name in `P` has a blank segment, then all module names have proper parts. -/
theorem Built.isProper {P : QualifiedName → Prop} (hP : ∀ q, P q → ∀ x ∈ q.segments, ¬x.IsBlank)
    {m : ModuleName} (h : Built P m) : IsProper m.parts := by
  induction h with
  | ofParts h => exact isProper_of_ofParts h
  | parse h => exact isProper_of_ofParts h
  | ofQualified h => exact isProper_ofQualified_iff.mpr (hP _ h)
  | ofFile h => exact isProper_of_ofFile h
  | atRange _ _ ih => exact ih
  | eraseRange _ ih => exact ih

/-! ## Dotted texts -/

/-- The parts of a qualified name that is read from a dotted text are the pieces of the text. -/
theorem parts_ofQualified_parse (range : SourceRange) (dotted : Text) :
    (ofQualified (.parse range dotted)).parts = dotted.splitOn QualifiedName.separator := by
  simp [ofQualified, QualifiedName.segments_parse, Function.comp_def, Name.render_ofRaw]

/-- A module name that a dotted text was read for has the range that it was read at. -/
theorem range_ofQualified_parse (range : SourceRange) (dotted : Text) :
    (ofQualified (.parse range dotted)).range = range :=
  QualifiedName.range_parse range dotted

/-- A dotted text denotes a module name exactly if its parts, read as a qualified name, are
proper, and then it is the module name of that qualified name. -/
theorem parse_eq_ok_ofQualified_iff (range : SourceRange) (dotted : Text) :
    parse range dotted = .ok (ofQualified (.parse range dotted)) ↔
      IsProper (ofQualified (.parse range dotted)).parts := by
  rw [parse, ofParts_eq_ok_iff, range_ofQualified_parse, parts_ofQualified_parse, partsOfText]
  by_cases h : dotted = []
  · -- read as a module name the empty text has no part, as a qualified name it has an empty one
    subst h
    constructor
    · rintro ⟨⟨hne, -⟩, -⟩
      exact absurd rfl hne
    · rintro ⟨-, hnil⟩
      exact absurd (List.mem_singleton_self _) hnil
  · simp [h]

/-! ## Empty parts -/

/-- All module names that come out of calls of the library have proper parts exactly if module
names are taken only from qualified names without a blank segment. Of the qualified names of dotted
texts these are the ones whose text can be read as a module name, which is then the same one. -/
theorem built_isProper_iff (P : QualifiedName → Prop) (range : SourceRange) (dotted : Text) :
    ((∀ m, Built P m → IsProper m.parts) ↔ ∀ q, P q → ∀ x ∈ q.segments, ¬x.IsBlank) ∧
      ((∀ x ∈ (QualifiedName.parse range dotted).segments, ¬x.IsBlank) ↔
        parse range dotted = .ok (ofQualified (.parse range dotted))) := by
  constructor
  · constructor
    · intro h q hq
      exact isProper_ofQualified_iff.mp (h _ (.ofQualified hq))
    · exact fun hP m h => h.isProper hP
  · rw [parse_eq_ok_ofQualified_iff, isProper_ofQualified_iff]

/-- The qualified name of a text that ends in a separator makes up a module name with an empty
part, although the text denotes no module name. -/
theorem ofQualified_trailing_separator :
    let m := ofQualified (.parse .unknown "A.".toList)
    Built (fun _ => True) m ∧ m.parts = [['A'], []] ∧ ¬IsProper m.parts ∧
      parse .unknown "A.".toList = .error (.broken ⟨.noEmptyPart, .unknown⟩) := by
  intro m
  have hparts : m.parts = [['A'], []] := by decide
  refine ⟨.ofQualified trivial, hparts, ?_, rfl⟩
  rintro ⟨-, hnil⟩
  exact hnil (by simp [hparts])

end ModuleName

end MixfixNames
