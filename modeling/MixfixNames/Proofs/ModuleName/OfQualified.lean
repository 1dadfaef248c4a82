/-
# Module Names of Qualified Names

A qualified name denotes the module name that has a part for each of its segments, as the segment is
printed. A dotted text that is a module name can therefore be read as one in two ways, by cutting it
at its full stops or by way of the qualified name, whose segments are cut into parts, printed again
and fused to one range. The main statement, `ofQualified_agrees`, says that both ways lead to the
same module name, and that no segment is lost on the second one, not even a qualifier that is left
out where the qualified name itself is printed.
-/
import MixfixNames.Proofs.ModuleName.NamedFile
import MixfixNames.Proofs.QualifiedName.Segments

namespace MixfixNames

open QualifiedName (separator)

namespace ModuleName

/-! ## Dotted texts -/

/-- A text that is a module name is read as the same one by way of the qualified name. -/
theorem ofQualified_parse_of_parse {range : SourceRange} {s : Text} {m : ModuleName}
    (h : parse range s = .ok m) : ofQualified (.parse range s) = m := by
  obtain ⟨hproper, hparts⟩ := parts_of_parse h
  rw [hparts, ← parts_ofQualified_parse range s] at hproper
  have hq := (parse_eq_ok_ofQualified_iff range s).mpr hproper
  exact Except.ok.inj (hq.symm.trans h)

end ModuleName

namespace NamePath

open ModuleName (ofQualified)

/-- The path of a dotted text is built around its last piece. -/
theorem ofSegments?_map_ofRaw (range : SourceRange) (s : Text) :
    ofSegments? ((s.splitOn separator).map (Name.ofRaw range)) =
      some (QualifiedName.parse range s).path := by
  rw [← QualifiedName.segments_parse, ← segments_path, ofSegments?_segments]

/-! ## Paths -/

/-- The parts are what the segments of the path are printed as. -/
theorem parts_ofQualified (p : NamePath) :
    (ofQualified p.toQualifiedName).parts = p.segments.map Name.render := by
  rw [← segments_toQualifiedName]
  rfl

/-- The range is that of the path. -/
theorem range_ofQualified (p : NamePath) : (ofQualified p.toQualifiedName).range = p.range := by
  have h := range_path p.toQualifiedName
  rw [path_toQualifiedName] at h
  exact h.symm

/-! ## Hidden qualifiers -/

/-- A path without qualifiers is printed the same as a module name. -/
theorem render_ofQualified_simple (x : Name) :
    (ofQualified (simple x).toQualifiedName).render = x.render := by
  rw [ModuleName.render, parts_ofQualified, segments_simple, Text.join]
  exact List.intercalate_singleton

/-- In the module name every qualifier is written. -/
theorem render_ofQualified_qualified (x : Name) (rest : NamePath) :
    (ofQualified (qualified x rest).toQualifiedName).render =
      x.render ++ separator :: (ofQualified rest.toQualifiedName).render := by
  have hne : (ofQualified rest.toQualifiedName).parts ≠ [] :=
    (ofQualified rest.toQualifiedName).parts_ne_nil
  rw [parts_ofQualified] at hne
  rw [ModuleName.render, ModuleName.render, parts_ofQualified, parts_ofQualified,
    segments_qualified, List.map_cons, Text.join, Text.join, List.intercalate_cons_of_ne_nil hne,
    List.append_assoc, List.singleton_append]

/-- What is printed of a path is not longer than the module name. -/
theorem length_render_le (p : NamePath) :
    p.render.length ≤ (ofQualified p.toQualifiedName).render.length := by
  induction p with
  | simple x => rw [render_ofQualified_simple, render]
  | qualified x rest ih =>
    rw [render_ofQualified_qualified, List.length_append, List.length_cons, render]
    split
    · omega
    · rw [List.length_append, List.length_cons]
      omega

/-- The path is printed as the module name exactly if no qualifier is left out. -/
theorem render_ofQualified_eq_iff (p : NamePath) :
    (ofQualified p.toQualifiedName).render = p.render ↔
      ∀ x ∈ p.toQualifiedName.qualifiers, x.isNameless = false := by
  induction p with
  | simple x =>
    exact iff_of_true (render_ofQualified_simple x) fun y hy => absurd hy List.not_mem_nil
  | qualified x rest ih =>
    have hqualifiers : (qualified x rest).toQualifiedName.qualifiers =
        x :: rest.toQualifiedName.qualifiers := rfl
    rw [render_ofQualified_qualified, hqualifiers, List.forall_mem_cons, ← ih, render]
    by_cases hx : x.isNameless = true
    · -- the module name has at least the separator more
      have hlength := length_render_le rest
      rw [if_pos hx, hx]
      refine iff_of_false (fun h => ?_) (by simp)
      have := congrArg List.length h
      rw [List.length_append, List.length_cons] at this
      omega
    · rw [if_neg hx, List.append_cancel_left_eq, List.cons.injEq]
      simp [hx]

end NamePath

/-- A dotted text that is read as a module name denotes the same one, at the same range, by way of
the qualified name, whether that is taken as a list of segments or as the path built around its last
piece. Every path denotes the module name with one part for each segment that a walk along the path
meets, in order, and at the range that the path covers. It is written as the path is printed exactly
if no qualifier of the path is left out there. -/
theorem ModuleName.ofQualified_agrees (range : SourceRange) (s : Text) (p : NamePath) :
    (∀ m, parse range s = .ok m → m.range = range ∧ ofQualified (.parse range s) = m ∧
        ∃ path, NamePath.ofSegments? ((s.splitOn separator).map (Name.ofRaw range)) = some path ∧
          ofQualified path.toQualifiedName = m) ∧
      (ofQualified p.toQualifiedName).parts = p.segments.map Name.render ∧
      (ofQualified p.toQualifiedName).range = p.range ∧
      ((ofQualified p.toQualifiedName).render = p.render ↔
        ∀ x ∈ p.toQualifiedName.qualifiers, x.isNameless = false) := by
  refine ⟨fun m h => ?_, p.parts_ofQualified, p.range_ofQualified, p.render_ofQualified_eq_iff⟩
  have hsame := ofQualified_parse_of_parse h
  refine ⟨(parts_of_ofParts h).2, hsame, _, NamePath.ofSegments?_map_ofRaw range s, ?_⟩
  rw [NamePath.toQualifiedName_path, hsame]

/-- The qualifier that is not printed is a part all the same. -/
example :
    let q := QualifiedName.parse .unknown "_.A".toList
    q.render = ['A'] ∧ (ModuleName.ofQualified q).parts = [['_'], ['A']] := by decide

end MixfixNames
