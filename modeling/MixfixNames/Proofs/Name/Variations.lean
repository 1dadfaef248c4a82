/-
# Variations of Names

A name that can be varied has a last token, and all its variations are the name with that token
varied as often. The main statement, `variations_never_repeat`, follows from the growth of tokens: a
name that has one variation has infinitely many, they are all different names and are printed
differently, and none of them is the wildcard.
-/
import MixfixNames.Name.Variation
import MixfixNames.Proofs.Token.Growth

namespace MixfixNames

/-! ## The last token -/

namespace Part

/-- Behind the last token there are only holes. -/
theorem exists_last_token {ps : List Part} (h : texts ps ≠ []) :
    ∃ before t after, ps = before ++ token t :: after ∧ texts after = [] := by
  induction ps with
  | nil => exact absurd rfl h
  | cons p ps ih =>
    by_cases hps : texts ps = []
    · cases p with
      | hole => exact absurd hps h
      | token t => exact ⟨[], t, ps, rfl, hps⟩
    · obtain ⟨before, t, after, rfl, ha⟩ := ih hps
      exact ⟨p :: before, t, after, rfl, ha⟩

/-- An edit of the last token leaves everything before and behind it. -/
theorem editLast?_append_token (edit : Text → Text) (before : List Part) (t : Text)
    {after : List Part} (ha : texts after = []) :
    editLast? edit (before ++ token t :: after) =
      some (before ++ token (edit t) :: after) := by
  induction before with
  | nil => exact editLast?_token_of_eq_none (editLast?_eq_none_iff.mpr ha) t
  | cons p before ih => exact editLast?_cons_of_eq_some ih p

end Part

/-! ## Wildcards -/

/-- No variation of a token is the wildcard. -/
theorem Token.next_ne_underscore (s : Text) : next s ≠ [underscore] := by
  intro h
  have hu : split [underscore] = ([underscore], none) := rfl
  cases step s with
  | counts hs hd hn hb =>
    rw [h, hu] at hb
    cases hb
  | starts hs hn hb =>
    rw [h, hu] at hb
    cases hb
  | lengthens hs hn hb =>
    -- a token that gets longer ends in a subscript digit
    have hl := congrArg List.getLast? (hn.symm.trans h)
    rw [Counter.first_eq, List.getLast?_concat] at hl
    exact absurd hl (by decide)

namespace Name

open MixfixNames.Part (texts editLast?)

/-- Parts with a varied token do not stand for the wildcard. -/
theorem areNamelessParts_append_next (before : List Part) (t : Text) (after : List Part) :
    areNamelessParts (before ++ .token (Token.next t) :: after) = false := by
  rw [Bool.eq_false_iff, ne_eq, areNamelessParts_iff]
  rintro (h | h | h)
  · simp at h
  · cases before <;> simp at h
  · cases before with
    | nil =>
      obtain ⟨hp, -⟩ := List.cons.inj h
      exact Token.next_ne_underscore t (Part.token.inj hp)
    | cons p before => simp at h

/-! ## Names that can be varied -/

/-- A name cannot be varied exactly if it is an occurrence of the wildcard, stands for the
wildcard, or has no token. -/
theorem next?_eq_none_iff {x : Name} :
    x.next? = none ↔ x.isAnonymous = true ∨ x.isNameless = true ∨ texts x.shownParts = [] := by
  obtain ⟨identity, range⟩ := x
  cases identity with
  | anonymous id => simp [next?, isAnonymous]
  | identifier parts =>
    simp only [next?, isAnonymous, shownParts, isNameless]
    by_cases h : areNamelessParts parts = true
    · simp [h]
    · simp [h, Part.editLast?_eq_none_iff]

/-- A name that can be varied is an identifier with a last token. -/
theorem exists_eq_ofParts_of_next? {x : Name} (h : x.next? ≠ none) :
    ∃ before t after, texts after = [] ∧ x = ofParts x.range (before ++ .token t :: after) ∧
      areNamelessParts (before ++ .token t :: after) = false := by
  obtain ⟨identity, range⟩ := x
  cases identity with
  | anonymous id => exact absurd rfl h
  | identifier parts =>
    rw [ne_eq, next?_eq_none_iff, not_or, not_or] at h
    obtain ⟨-, hn, ht⟩ := h
    obtain ⟨before, t, after, rfl, ha⟩ := Part.exists_last_token ht
    exact ⟨before, t, after, ha, rfl, Bool.eq_false_iff.mpr hn⟩

/-- The variations of an identifier are those of its last token. -/
theorem variation?_ofParts (range : SourceRange) (before : List Part) (t : Text)
    {after : List Part} (ha : texts after = [])
    (hn : areNamelessParts (before ++ .token t :: after) = false) (k : ℕ) :
    variation? k (ofParts range (before ++ .token t :: after)) =
      some (ofParts range (before ++ .token (Token.variation k t) :: after)) := by
  -- the varied name is of the same form, so the induction goes on with the varied token
  induction k generalizing t with
  | zero => rfl
  | succ k ih =>
    have hnext : (ofParts range (before ++ .token t :: after)).next? =
        some (ofParts range (before ++ .token (Token.next t) :: after)) := by
      simp [next?, ofParts, isNameless, shownParts, hn, Part.editLast?_append_token _ _ _ ha]
    rw [variation?, hnext, Option.bind_some,
      ih (Token.next t) (areNamelessParts_append_next before t after), Token.variation_succ]

/-- A step of variation puts the next variation of the last token in its place. -/
theorem exists_eq_ofParts_next {x y : Name} (h : x.next? = some y) :
    ∃ before t after, texts after = [] ∧ before ++ .token t :: after ≠ [.token [underscore]] ∧
      x = ofParts x.range (before ++ .token t :: after) ∧
      y = ofParts x.range (before ++ .token (Token.next t) :: after) := by
  obtain ⟨before, t, after, ha, hx, hn⟩ := exists_eq_ofParts_of_next? (x := x) (by simp [h])
  have hvar := variation?_ofParts x.range before t ha hn 1
  rw [← hx, variation?, h] at hvar
  refine ⟨before, t, after, ha, ?_, hx, Option.some.inj hvar⟩
  intro hwild
  rw [hwild] at hn
  cases hn

/-- The last step of variation may be taken apart as well as the first one. -/
theorem variation?_succ_eq_bind_next? (k : ℕ) (x : Name) :
    variation? (k + 1) x = (variation? k x).bind next? := by
  induction k generalizing x with
  | zero => simp [variation?]
  | succ k ih =>
    rw [variation?, variation?, Option.bind_assoc]
    congr 1
    funext y
    exact ih y

/-- A variation stands where the name stood, however many steps it is away. -/
theorem range_of_variation? {k : ℕ} {x y : Name} (h : variation? k x = some y) :
    y.range = x.range := by
  induction k generalizing x with
  | zero =>
    cases h
    rfl
  | succ k ih =>
    obtain ⟨z, hz, hy⟩ := Option.bind_eq_some_iff.mp h
    rw [ih hy, range_of_next? hz]

/-! ## Variations never repeat -/

/-- Identifiers that differ in one token are printed differently. -/
theorem render_ofParts_append_token_inj {range range' : SourceRange} {before after : List Part}
    {t u : Text} (h : (ofParts range (before ++ .token t :: after)).render =
      (ofParts range' (before ++ .token u :: after)).render) : t = u := by
  have htoken : ∀ v, Part.renderAll (before ++ .token v :: after) =
      Part.renderAll before ++ (v ++ Part.renderAll after) :=
    fun v => Part.renderAll_append before (.token v :: after)
  have hparts : Part.renderAll (before ++ .token t :: after) =
      Part.renderAll (before ++ .token u :: after) := h
  rw [htoken, htoken] at hparts
  exact List.append_cancel_right (List.append_cancel_left hparts)

/-- A name that has a variation has infinitely many, and they are printed differently. -/
theorem exists_variations_render {x : Name} (h : x.next? ≠ none) :
    ∃ f : ℕ → Name, (∀ k, variation? k x = some (f k)) ∧
      Function.Injective fun k => (f k).render := by
  obtain ⟨before, t, after, ha, hx, hn⟩ := exists_eq_ofParts_of_next? h
  refine ⟨fun k => ofParts x.range (before ++ .token (Token.variation k t) :: after), ?_, ?_⟩
  · intro k
    rw [← variation?_ofParts x.range before t ha hn k, ← hx]
  · intro i j hij
    exact Token.variation_injective t (render_ofParts_append_token_inj hij)

theorem render_eq_of_identity_eq {x y : Name} (h : x.identity = y.identity) :
    x.render = y.render := by
  rw [render, render, shownParts, shownParts, h]

/-- A name that has a variation has infinitely many, and they are all different. -/
theorem exists_variations {x : Name} (h : x.next? ≠ none) :
    ∃ f : ℕ → Name, (∀ k, variation? k x = some (f k)) ∧
      Function.Injective fun k => (f k).identity := by
  obtain ⟨f, hf, hrender⟩ := exists_variations_render h
  exact ⟨f, hf, fun i j hij => hrender (render_eq_of_identity_eq hij)⟩

/-- `f` runs through the variations of `x` and never comes to an end or back. -/
structure IsEndlessRun (x : Name) (f : ℕ → Name) : Prop where
  /-- The run goes through the variations of `x`. -/
  variation?_eq : ∀ k, variation? k x = some (f k)
  /-- It starts with `x` itself. -/
  zero_eq : f 0 = x
  /-- Each name in it can be varied and is followed by its next variation. -/
  next?_eq : ∀ k, (f k).next? = some (f (k + 1))
  /-- No name in it stands for the wildcard. -/
  isNameless_eq : ∀ k, (f k).isNameless = false
  /-- No name comes twice. -/
  beq_eq_false : ∀ i j, i < j → (f i == f j) = false
  /-- No two names are printed alike. -/
  render_ne : ∀ i j, i < j → (f i).render ≠ (f j).render

theorem exists_isEndlessRun {x : Name} (h : x.next? ≠ none) : ∃ f, IsEndlessRun x f := by
  obtain ⟨f, hf, hrender⟩ := exists_variations_render h
  have hnext : ∀ k, (f k).next? = some (f (k + 1)) := by
    intro k
    have hk := variation?_succ_eq_bind_next? k x
    rwa [hf, hf, Option.bind_some, eq_comm] at hk
  refine ⟨f, hf, Option.some.inj (hf 0).symm, hnext, fun k => ?_, fun i j hij => ?_, ?_⟩
  · have hk : ¬ (f k).next? = none := by simp [hnext]
    rw [next?_eq_none_iff, not_or, not_or] at hk
    exact Bool.eq_false_iff.mpr hk.2.1
  · rw [Bool.eq_false_iff, ne_eq, beq_iff]
    exact fun hsame => hij.ne (hrender (render_eq_of_identity_eq hsame))
  · exact fun i j hij hsame => hij.ne (hrender hsame)

/-- The variations of a token are all different. A name that can be varied at all can be varied for
ever: there is a run through its variations that never ends, never comes back to a name or to what
has been printed, and never meets the wildcard. -/
theorem variations_never_repeat :
    (∀ (s : Text) (i j : ℕ), i < j → Token.variation i s ≠ Token.variation j s) ∧
      ∀ x : Name, x.next? ≠ none ↔ ∃ f, IsEndlessRun x f := by
  refine ⟨fun s i j hij hsame => hij.ne (Token.variation_injective s hsame), fun x => ?_⟩
  constructor
  · exact exists_isEndlessRun
  · rintro ⟨f, hf⟩
    rw [← hf.zero_eq, hf.next?_eq]
    exact Option.some_ne_none _

end Name

end MixfixNames
