/-
# Identifiers That Share a Root

Roots are compared as they are printed. Between the underscores of a raw identifier stand pieces,
and its root is printed with the same pieces but for the last one that is not empty, which has lost
its counter; so identifiers share a root exactly if these pieces agree. That they also agree in
their parts can be read off how far their tokens reach. The main statement,
`shareRoot_ofRaw`, says that identifiers with a common root are the same but for the text of their
last token if these tokens reach equally far, and that otherwise the token that reaches farther is
nothing but a counter, of which the root keeps no trace.
-/
import MixfixNames.Proofs.Name.RawParts
import MixfixNames.Proofs.Name.Root

namespace MixfixNames

namespace Part

/-! ## Parts that agree -/

/-- The parts are the same but for the text of the last token, and so is the root of that. -/
def AgreeUpToCounter (ps qs : List Part) : Prop :=
  ps = qs ∨ ∃ before t u after, texts after = [] ∧ ps = before ++ token t :: after ∧
    qs = before ++ token u :: after ∧ Token.root t = Token.root u

theorem AgreeUpToCounter.symm {ps qs : List Part} (h : AgreeUpToCounter ps qs) :
    AgreeUpToCounter qs ps := by
  rcases h with rfl | ⟨before, t, u, after, ha, hp, hq, hroot⟩
  · exact .inl rfl
  · exact .inr ⟨before, u, t, after, ha, hq, hp, hroot.symm⟩

/-- Parts that agree have their holes at the same places. -/
theorem AgreeUpToCounter.map_isHole_eq {ps qs : List Part} (h : AgreeUpToCounter ps qs) :
    ps.map isHole = qs.map isHole := by
  rcases h with rfl | ⟨before, t, u, after, -, rfl, rfl, -⟩
  · rfl
  · simp [isHole]

/-- The last token divides a sequence of parts in one way only. -/
theorem append_token_inj {before before' after after' : List Part} {t u : Text}
    (ha : texts after = []) (ha' : texts after' = [])
    (h : before ++ token t :: after = before' ++ token u :: after') :
    before = before' ∧ t = u ∧ after = after' := by
  induction before generalizing before' with
  | nil =>
    cases before' with
    | nil =>
      obtain ⟨ht, hafter⟩ := List.cons.inj h
      exact ⟨rfl, token.inj ht, hafter⟩
    | cons q before' =>
      obtain ⟨-, htail⟩ := List.cons.inj h
      simp [htail, texts, text?] at ha
  | cons p before ih =>
    cases before' with
    | nil =>
      obtain ⟨-, htail⟩ := List.cons.inj h
      simp [← htail, texts, text?] at ha'
    | cons q before' =>
      obtain ⟨rfl, htail⟩ := List.cons.inj h
      obtain ⟨rfl, hrest⟩ := ih htail
      exact ⟨rfl, hrest⟩

/-! ## Parts of pieces -/

/-- The parts of spans behind each of which there is a hole. -/
def ofOpenSpans (spans : List Text) : List Part := spans.flatMap fun span => ofSpan span ++ [hole]

/-- Spans in front of others are each followed by a hole. -/
theorem ofSpans_append (spans : List Text) {rest : List Text} (h : rest ≠ []) :
    ofSpans (spans ++ rest) = ofOpenSpans spans ++ ofSpans rest := by
  induction spans with
  | nil => rfl
  | cons span spans ih =>
    obtain ⟨next, others, hs⟩ :=
      List.exists_cons_of_ne_nil (List.append_ne_nil_of_right_ne_nil spans h)
    rw [List.cons_append, hs, ofSpans_cons_cons, ← hs, ih]
    simp [ofOpenSpans]

/-- Empty spans behind a token are as many holes. -/
theorem ofSpans_cons_replicate (t : Text) (n : ℕ) :
    ofSpans (t :: List.replicate n []) = ofSpan t ++ List.replicate n hole := by
  rw [ofSpans]
  congr 1
  induction n with
  | zero => rfl
  | succ n ih => rw [List.replicate_succ, List.flatMap_cons, ih, List.replicate_succ]; rfl

theorem holeCount_ofOpenSpans (spans : List Text) :
    holeCount (ofOpenSpans spans) = spans.length := by
  induction spans with
  | nil => rfl
  | cons span spans ih =>
    have hspan : (ofSpan span).countP isHole = 0 := by
      by_cases h : span = [] <;> simp [ofSpan, isHole, h]
    have hcons : ofOpenSpans (span :: spans) = ofSpan span ++ [hole] ++ ofOpenSpans spans := rfl
    rw [holeCount] at ih
    rw [hcons, holeCount, List.countP_append, List.countP_append, hspan, ih, List.length_cons]
    simp [isHole, Nat.add_comm]

end Part

namespace Name

open MixfixNames.Part (AgreeUpToCounter ofOpenSpans ofSpan ofSpans renderAll texts)

/-! ## How far tokens reach -/

/-- How far the tokens of a raw identifier reach: the number of pieces between its underscores up to
the last one that is not empty. -/
def reach (raw : Text) : ℕ :=
  ((raw.splitOn underscore).rdropWhile List.isEmpty).length

/-- How the pieces of a raw identifier end: all of them are empty, or all behind the last token. -/
inductive Pieces (raw : Text) : Prop where
  | blank (n : ℕ) (h : raw.splitOn underscore = List.replicate n []) (hr : reach raw = 0)
  | token (front : List Text) (t : Text) (n : ℕ) (ht : t ≠ [])
    (h : raw.splitOn underscore = front ++ t :: List.replicate n [])
    (hr : reach raw = front.length + 1)

/-- The pieces of every raw identifier end in one of these ways. -/
theorem pieces (raw : Text) : Pieces raw := by
  have hcut := List.rdropWhile_append_rtakeWhile (p := List.isEmpty) (l := raw.splitOn underscore)
  obtain ⟨n, hback⟩ : ∃ n, (raw.splitOn underscore).rtakeWhile List.isEmpty =
      List.replicate n [] :=
    ⟨_, List.eq_replicate_iff.mpr ⟨rfl, fun p hp =>
      List.isEmpty_iff.mp (List.mem_rtakeWhile_imp hp)⟩⟩
  rw [hback] at hcut
  rcases List.eq_nil_or_concat'
    ((raw.splitOn underscore).rdropWhile List.isEmpty) with hnil | ⟨front, t, hfront⟩
  · rw [hnil, List.nil_append] at hcut
    refine .blank n hcut.symm ?_
    rw [reach, hnil, List.length_nil]
  · have hne : (raw.splitOn underscore).rdropWhile List.isEmpty ≠ [] := by simp [hfront]
    have ht : t.isEmpty = false := by
      have hlast := List.rdropWhile_last_not List.isEmpty (raw.splitOn underscore) hne
      simpa only [hfront, List.getLast_concat, Bool.not_eq_true] using hlast
    rw [hfront, List.append_assoc, List.singleton_append] at hcut
    refine .token front t n ?_ hcut.symm ?_
    · rintro rfl
      cases ht
    · rw [reach, hfront, List.length_append, List.length_singleton]

/-! ## Roots of raw identifiers -/

/-- Empty pieces make up no token. -/
theorem texts_ofRaw_of_blank {raw : Text} {n : ℕ}
    (h : raw.splitOn underscore = List.replicate n []) (hraw : raw ≠ [underscore]) :
    texts (Part.ofRaw raw) = [] := by
  rw [Part.ofRaw, if_neg hraw, Part.texts_ofSpans, h]
  simp

/-- Without a token a raw identifier is its own root, and so is the wildcard. -/
theorem root_ofRaw_of_blank (range : SourceRange) {raw : Text} {n : ℕ}
    (h : raw.splitOn underscore = List.replicate n []) : (ofRaw range raw).root = raw := by
  by_cases hraw : raw = [underscore]
  · rw [hraw]
    rfl
  · have hnone : (ofRaw range raw).fragments = [] := texts_ofRaw_of_blank h hraw
    rw [root_of_fragments_eq_nil hnone, render_ofRaw]

/-- The last piece that is not empty is the last token, and behind it are holes only. -/
theorem ofRaw_of_token {raw : Text} {front : List Text} {t : Text} {n : ℕ} (ht : t ≠ [])
    (h : raw.splitOn underscore = front ++ t :: List.replicate n []) :
    Part.ofRaw raw = ofOpenSpans front ++ .token t :: List.replicate n .hole := by
  have hraw : raw ≠ [underscore] := by
    rintro rfl
    have hsplit : [underscore].splitOn underscore = [[], []] := by decide
    have hmem : t ∈ [underscore].splitOn underscore := by simp [h]
    rw [hsplit] at hmem
    exact ht (by simpa using hmem)
  rw [Part.ofRaw, if_neg hraw, h, Part.ofSpans_append front (List.cons_ne_nil _ _),
    Part.ofSpans_cons_replicate, ofSpan, if_neg ht, List.singleton_append]

theorem texts_replicate_hole (n : ℕ) : texts (List.replicate n .hole) = [] := by
  induction n with
  | zero => rfl
  | succ n ih => exact ih

/-- There is no underscore in the last token. -/
theorem underscore_notMem_last {raw : Text} {front : List Text} {t : Text} {n : ℕ}
    (h : raw.splitOn underscore = front ++ t :: List.replicate n []) : underscore ∉ t := by
  apply Sequence.not_mem_of_mem_splitOn (s := raw)
  simp [h]

/-- The root of a raw identifier has the root of its last token in place of that token. -/
theorem splitOn_root_of_token (range : SourceRange) {raw : Text} {front : List Text} {t : Text}
    {n : ℕ} (ht : t ≠ []) (h : raw.splitOn underscore = front ++ t :: List.replicate n []) :
    (ofRaw range raw).root.splitOn underscore = front ++ Token.root t :: List.replicate n [] := by
  have hroot : (ofRaw range raw).root =
      [underscore].intercalate (front ++ Token.root t :: List.replicate n []) := by
    rw [ofRaw, ofRaw_of_token ht h,
      root_ofParts_append_token range _ t (texts_replicate_hole n), ← Part.renderAll_ofSpans,
      Part.ofSpans_append front (List.cons_ne_nil _ _), Part.ofSpans_cons_replicate,
      Part.renderAll_append, Part.renderAll_append, Part.renderAll_ofSpan]
  rw [hroot]
  refine List.splitOn_intercalate underscore (fun p hp => ?_) (by simp)
  rcases List.mem_append.mp hp with hp | hp
  · apply Sequence.not_mem_of_mem_splitOn (s := raw)
    rw [h]
    exact List.mem_append_left _ hp
  · rcases List.mem_cons.mp hp with rfl | hp
    · exact fun hmem => underscore_notMem_last h ((Token.root_isPrefix t).subset hmem)
    · rw [List.eq_of_mem_replicate hp]
      exact List.not_mem_nil

/-! ## A common root -/

/-- The last token of the name is nothing but a counter. -/
def EndsBare (x : Name) : Prop := ∃ t, x.fragments.getLast? = some t ∧ Token.root t = []

/-- A name ends in a bare counter if nothing is left of its last token without it. -/
theorem endsBare_of_token (range : SourceRange) {raw : Text} {front : List Text} {t : Text}
    {n : ℕ} (ht : t ≠ []) (h : raw.splitOn underscore = front ++ t :: List.replicate n [])
    (hroot : Token.root t = []) : (ofRaw range raw).EndsBare := by
  refine ⟨t, ?_, hroot⟩
  rw [ofRaw, ofRaw_of_token ht h]
  exact getLast?_fragments_append_token range _ t (texts_replicate_hole n)

/-- Parts that agree are those of identifiers that share a root. -/
theorem shareRoot_of_agreeUpToCounter (range range' : SourceRange) {ps qs : List Part}
    (h : AgreeUpToCounter ps qs) : (ofParts range ps).shareRoot (ofParts range' qs) = true := by
  rcases h with rfl | ⟨before, t, u, after, ha, rfl, rfl, hroot⟩
  · exact beq_iff_eq.mpr rfl
  · exact (shareRoot_ofParts_append_token_iff range range' before t u ha).mpr hroot

/-- Between the underscores of a common root stand the same pieces. -/
theorem splitOn_root_eq_of_shareRoot {x y : Name} (h : x.shareRoot y = true) :
    x.root.splitOn underscore = y.root.splitOn underscore := by
  rw [beq_iff_eq.mp h]

/-- Identifiers without tokens that share a root are the same. -/
theorem eq_of_shareRoot_of_blank {range range' : SourceRange} {a b : Text} {n m : ℕ}
    (ha : a.splitOn underscore = List.replicate n [])
    (hb : b.splitOn underscore = List.replicate m [])
    (h : (ofRaw range a).shareRoot (ofRaw range' b) = true) : a = b := by
  have hroot := beq_iff_eq.mp h
  rwa [root_ofRaw_of_blank range ha, root_ofRaw_of_blank range' hb] at hroot

/-- A token behind all tokens of another identifier with the same root is nothing but a counter. -/
theorem endsBare_of_reach_lt {range range' : SourceRange} {a b : Text}
    (h : (ofRaw range a).shareRoot (ofRaw range' b) = true) (hlt : reach a < reach b) :
    (ofRaw range' b).EndsBare := by
  have hsame := splitOn_root_eq_of_shareRoot h
  cases pieces b with
  | blank m hb hrb => omega
  | token front' u m hu hb hrb =>
    refine endsBare_of_token range' hu hb ?_
    -- the other root has empty pieces only from behind its last token on, and there the token is
    rw [splitOn_root_of_token range' hu hb] at hsame
    cases pieces a with
    | blank n ha hra =>
      rw [root_ofRaw_of_blank range ha, ha] at hsame
      have hmem : Token.root u ∈ List.replicate n [] := by simp [hsame]
      exact List.eq_of_mem_replicate hmem
    | token front t n ht ha hra =>
      rw [splitOn_root_of_token range ht ha] at hsame
      have hdrop := congrArg (List.drop (front.length + 1)) hsame
      rw [List.append_cons, List.drop_left' (by simp),
        List.drop_append_of_le_length (by omega)] at hdrop
      have hmem : Token.root u ∈ List.replicate n [] := by simp [hdrop]
      exact List.eq_of_mem_replicate hmem

/-- Identifiers that share a root and reach equally far agree. -/
theorem agreeUpToCounter_of_reach_eq {range range' : SourceRange} {a b : Text}
    (h : (ofRaw range a).shareRoot (ofRaw range' b) = true) (heq : reach a = reach b) :
    AgreeUpToCounter (Part.ofRaw a) (Part.ofRaw b) := by
  cases pieces a with
  | blank n ha hra =>
    cases pieces b with
    | blank m hb hrb => exact .inl (congrArg Part.ofRaw (eq_of_shareRoot_of_blank ha hb h))
    | token front' u m hu hb hrb => omega
  | token front t n ht ha hra =>
    cases pieces b with
    | blank m hb hrb => omega
    | token front' u m hu hb hrb =>
      have hsame := splitOn_root_eq_of_shareRoot h
      rw [splitOn_root_of_token range ht ha, splitOn_root_of_token range' hu hb] at hsame
      obtain ⟨rfl, htail⟩ := List.append_inj hsame (by omega)
      obtain ⟨hroot, hback⟩ := List.cons.inj htail
      obtain rfl : n = m := by simpa using congrArg List.length hback
      exact .inr ⟨_, t, u, _, texts_replicate_hole n, ofRaw_of_token ht ha, ofRaw_of_token hu hb,
        hroot⟩

/-- Parts with a token do not agree with those of an identifier without one. -/
theorem not_agreeUpToCounter_of_blank {a b : Text} {front : List Text} {t : Text} {n m : ℕ}
    (ha : a.splitOn underscore = List.replicate m []) (ht : t ≠ [])
    (hb : b.splitOn underscore = front ++ t :: List.replicate n []) :
    ¬ AgreeUpToCounter (Part.ofRaw a) (Part.ofRaw b) := by
  rintro (h | ⟨before, u, v, after, hafter, hu, hv, hroot⟩)
  · rw [Part.ofRaw_injective h, hb] at ha
    have hmem : t ∈ List.replicate m [] := by simp [← ha]
    exact ht (List.eq_of_mem_replicate hmem)
  · by_cases hwild : a = [underscore]
    · -- the root of the wildcard is the underscore, which is in no token
      rw [hwild, Part.ofRaw_underscore, ← List.nil_append [_]] at hu
      obtain ⟨-, rfl, -⟩ := Part.append_token_inj rfl hafter hu
      rw [ofRaw_of_token ht hb] at hv
      obtain ⟨-, rfl, -⟩ := Part.append_token_inj (texts_replicate_hole n) hafter hv
      have hmem : underscore ∈ Token.root t := hroot ▸ List.mem_cons_self
      exact underscore_notMem_last hb ((Token.root_isPrefix t).subset hmem)
    · have hnone := texts_ofRaw_of_blank ha hwild
      simp [hu, texts, Part.text?] at hnone

/-- Identifiers that agree reach equally far. -/
theorem reach_eq_of_agreeUpToCounter {a b : Text}
    (h : AgreeUpToCounter (Part.ofRaw a) (Part.ofRaw b)) : reach a = reach b := by
  cases pieces a with
  | blank n ha hra =>
    cases pieces b with
    | blank m hb hrb => rw [hra, hrb]
    | token front' u m hu hb hrb => exact absurd h (not_agreeUpToCounter_of_blank ha hu hb)
  | token front t n ht ha hra =>
    cases pieces b with
    | blank m hb hrb => exact absurd h.symm (not_agreeUpToCounter_of_blank hb ht ha)
    | token front' u m hu hb hrb =>
      rcases h with h | ⟨before, v, w, after, hafter, hv, hw, -⟩
      · rw [Part.ofRaw_injective h]
      · rw [ofRaw_of_token ht ha] at hv
        rw [ofRaw_of_token hu hb] at hw
        obtain ⟨hfront, -, -⟩ := Part.append_token_inj (texts_replicate_hole n) hafter hv
        obtain ⟨hfront', -, -⟩ := Part.append_token_inj (texts_replicate_hole m) hafter hw
        have hholes := congrArg Part.holeCount (hfront.trans hfront'.symm)
        rw [Part.holeCount_ofOpenSpans, Part.holeCount_ofOpenSpans] at hholes
        omega

/-- Raw identifiers that agree up to the counter of their last token share a root, and have the same
fixity and number of holes. Of those that share a root, exactly the ones agree whose tokens reach
equally far; otherwise the last token of the one that reaches farther is nothing but a counter. -/
theorem shareRoot_ofRaw (range range' : SourceRange) (a b : Text) :
    let x := ofRaw range a
    let y := ofRaw range' b
    (AgreeUpToCounter x.shownParts y.shownParts →
      x.shareRoot y = true ∧ x.fixity? = y.fixity? ∧ x.holeCount = y.holeCount) ∧
    (x.shareRoot y = true →
      (AgreeUpToCounter x.shownParts y.shownParts ↔ reach a = reach b) ∧
        (reach a < reach b → y.EndsBare) ∧ (reach b < reach a → x.EndsBare)) := by
  intro x y
  refine ⟨fun h => ⟨?_, ?_, ?_⟩, fun h => ⟨?_, ?_, ?_⟩⟩
  · exact shareRoot_of_agreeUpToCounter range range' h
  · exact Part.of?_eq_of_map_isHole_eq h.map_isHole_eq
  · exact Part.holeCount_eq_of_map_isHole_eq h.map_isHole_eq
  · exact ⟨reach_eq_of_agreeUpToCounter, agreeUpToCounter_of_reach_eq h⟩
  · exact endsBare_of_reach_lt h
  · exact endsBare_of_reach_lt (beq_iff_eq.mpr (beq_iff_eq.mp h).symm)

/-- An operator with a counter in its last token and a variation of it in another alphabet. -/
theorem shareRoot_ofRaw_of_operator :
    let x := ofRaw .unknown "if_x1_".toList
    let y := ofRaw .unknown "if_x₂₀_".toList
    x.shareRoot y = true ∧ AgreeUpToCounter x.shownParts y.shownParts := by
  intro x y
  have h : x.shareRoot y = true := by decide
  exact ⟨h, ((shareRoot_ofRaw .unknown .unknown _ _).2 h).1.mpr (by decide)⟩

/-- A token that is nothing but a counter leaves no trace in the root: a prefix operator shares its
root with a name of another shape that has one token more. -/
theorem shareRoot_of_bare_counter :
    let x := ofRaw .unknown "a_1".toList
    let y := ofRaw .unknown "a_".toList
    x.shareRoot y = true ∧ x.shownParts = [.token ['a'], .hole, .token ['1']] ∧
      y.shownParts = [.token ['a'], .hole] ∧ x.fixity? ≠ y.fixity? ∧
      ¬ AgreeUpToCounter x.shownParts y.shownParts := by
  refine ⟨by decide, by decide, by decide, by decide, fun h => ?_⟩
  exact absurd h.map_isHole_eq (by decide)

end Name

end MixfixNames
