/-
# Variations Are Read Back

Which names are what their printed text is read as. The name of a raw identifier is, and a step of
variation never leads away from these names: it puts in place of the last token another one that is
not empty and holds no underscore, so what is printed is cut at the same places. So names that were
made by reading and varying are told apart by what is printed of them. The module also says which
raw identifiers have no variations at all.
-/
import MixfixNames.Proofs.Name.RawParts
import MixfixNames.Proofs.Name.Root

namespace MixfixNames

namespace Part

/-- Readable parts are still so with another token in place of one, but for the wildcard. -/
theorem isReadable_append_token {before after : List Part} {t u : Text}
    (h : IsReadable (before ++ token t :: after))
    (hne : before ++ token t :: after ≠ [token [underscore]]) (hu : u ≠ [] ∧ underscore ∉ u) :
    IsReadable (before ++ token u :: after) := by
  obtain ⟨htexts, hchain, -⟩ := h.resolve_left hne
  have hmap : (before ++ token u :: after).map isHole =
      (before ++ token t :: after).map isHole := by
    simp [isHole]
  refine .inr ⟨fun v hv => ?_, ?_, ?_⟩
  · simp only [texts, List.filterMap_append, List.filterMap_cons, text?, List.mem_append,
      List.mem_cons] at hv htexts
    rcases hv with hv | rfl | hv
    · exact htexts v (.inl hv)
    · exact hu
    · exact htexts v (.inr (.inr hv))
  · rw [isChain_separated_iff, hmap, ← isChain_separated_iff]
    exact hchain
  · cases before <;> simp

/-- A token of readable parts holds no underscore, but for the wildcard. -/
theorem underscore_notMem_of_isReadable {before after : List Part} {t : Text}
    (h : IsReadable (before ++ token t :: after))
    (hne : before ++ token t :: after ≠ [token [underscore]]) : underscore ∉ t := by
  refine ((h.resolve_left hne).1 t ?_).2
  simp [texts, text?]

end Part

namespace Name

open MixfixNames.Part (IsReadable renderAll texts)

/-! ## Names that are read back -/

/-- The name is what its printed text is read as. -/
def ReadsBack (x : Name) : Prop := ofRaw x.range x.render = x

theorem readsBack_ofRaw (range : SourceRange) (raw : Text) : (ofRaw range raw).ReadsBack := by
  rw [ReadsBack, render_ofRaw]
  rfl

theorem readsBack_ofParts_iff (range : SourceRange) (ps : List Part) :
    (ofParts range ps).ReadsBack ↔ IsReadable ps := by
  constructor
  · intro h
    have hparts : Part.ofRaw (renderAll ps) = ps :=
      Identity.identifier.inj (congrArg Name.identity h)
    rw [← hparts]
    exact Part.isReadable_ofRaw (renderAll ps)
  · intro h
    exact congrArg (ofParts range) (Part.ofRaw_renderAll h)

/-- Names that are read back are the same if they are printed alike. -/
theorem beq_of_render_eq {x y : Name} (hx : x.ReadsBack) (hy : y.ReadsBack)
    (h : x.render = y.render) : (x == y) = true := by
  rw [← hx, ← hy, h]
  exact ofRaw_beq_iff.mpr rfl

/-- The next variation of a name that is read back is read back, too. -/
theorem ReadsBack.next? {x y : Name} (hx : x.ReadsBack) (h : x.next? = some y) : y.ReadsBack := by
  obtain ⟨before, t, after, -, hne, hparts, rfl⟩ := exists_eq_ofParts_next h
  rw [hparts, readsBack_ofParts_iff] at hx
  have hnot := Part.underscore_notMem_of_isReadable hx hne
  rw [readsBack_ofParts_iff]
  exact Part.isReadable_append_token hx hne
    ⟨Token.next_ne_nil t, Token.notMem_next (by decide) hnot⟩

/-- All variations of a name that is read back are read back. -/
theorem ReadsBack.variation? {k : ℕ} {x y : Name} (hx : x.ReadsBack)
    (h : Name.variation? k x = some y) : y.ReadsBack := by
  induction k generalizing x with
  | zero =>
    obtain rfl : x = y := Option.some.inj h
    exact hx
  | succ k ih =>
    obtain ⟨z, hz, hy⟩ := Option.bind_eq_some_iff.mp h
    exact ih (hx.next? hz) hy

/-! ## How variations are printed -/

/-- A variation is printed with a character of a counter at its end, or with an underscore. -/
theorem exists_getLast?_render_of_next? {x y : Name} (h : x.next? = some y) :
    ∃ c, y.render.getLast? = some c ∧ (c = underscore ∨ Counter.isCounting c = true) := by
  obtain ⟨before, t, after, ha, -, -, rfl⟩ := exists_eq_ofParts_next h
  show ∃ c, (renderAll (before ++ .token (Token.next t) :: after)).getLast? = some c ∧ _
  rcases List.eq_nil_or_concat' after with rfl | ⟨init, p, rfl⟩
  · obtain ⟨c, hc, hcounting⟩ := Token.exists_getLast?_next t
    refine ⟨c, ?_, .inr hcounting⟩
    have hlast : renderAll [.token (Token.next t)] = Token.next t := List.append_nil _
    rw [Part.renderAll_append, hlast, List.getLast?_append, hc]
    rfl
  · -- behind the last token there are only holes
    cases p with
    | token u => simp [texts, Part.text?] at ha
    | hole =>
      refine ⟨underscore, ?_, .inl rfl⟩
      rw [← List.cons_append, ← List.append_assoc, Part.renderAll_append]
      exact List.getLast?_concat

/-! ## Names without variations -/

/-- Without a token nothing is written but underscores. -/
theorem eq_underscore_of_mem_renderAll {ps : List Part} (h : texts ps = []) :
    ∀ c ∈ renderAll ps, c = underscore := by
  intro c hc
  obtain ⟨p, hp, hcp⟩ := List.mem_flatMap.mp hc
  cases p with
  | hole => exact List.mem_singleton.mp hcp
  | token t =>
    have ht : t ∈ texts ps := List.mem_filterMap.mpr ⟨_, hp, rfl⟩
    rw [h] at ht
    cases ht

/-- A raw identifier has no variations exactly if it holds nothing but underscores. -/
theorem next?_ofRaw_eq_none_iff (range : SourceRange) (raw : Text) :
    (ofRaw range raw).next? = none ↔ ∀ c ∈ raw, c = underscore := by
  rw [next?_eq_none_iff]
  constructor
  · intro h c hc
    rw [← Part.renderAll_ofRaw raw] at hc
    rcases h with h | h | h
    · cases h
    · rcases areNamelessParts_iff.mp h with hps | hps | hps
      · rw [show Part.ofRaw raw = [] from hps] at hc
        cases hc
      · rw [show Part.ofRaw raw = [.hole] from hps] at hc
        exact List.mem_singleton.mp hc
      · rw [show Part.ofRaw raw = [.token [underscore]] from hps] at hc
        exact List.mem_singleton.mp hc
    · exact eq_underscore_of_mem_renderAll h c hc
  · intro h
    by_cases hwild : raw = [underscore]
    · rw [hwild]
      exact .inr (.inl rfl)
    · refine .inr (.inr ?_)
      show texts (Part.ofRaw raw) = []
      rw [Part.ofRaw, if_neg hwild, Part.texts_ofSpans, List.filter_eq_nil_iff]
      intro piece hpiece
      have hnil : piece = [] := by
        rw [List.eq_nil_iff_forall_not_mem]
        intro c hc
        have hne : c ≠ underscore := by
          rintro rfl
          exact Sequence.not_mem_of_mem_splitOn hpiece hc
        exact hne (h c ((Sequence.exists_mem_splitOn_iff hne).mp ⟨piece, hpiece, hc⟩))
      simp [hnil]

end Name

end MixfixNames
