/-
# Roots of Varied Names

The root of a name is what is printed of it with its last token cut down to the root of that token.
All variations of a name agree in everything but that token, so they share the root of the name as
long as the token keeps its own. The main statement, `variations_share_root_iff`, says that this is
so until a full counter has to be counted on.
-/
import MixfixNames.Proofs.Name.Variations
import MixfixNames.Proofs.Token.Root

namespace MixfixNames.Name

open MixfixNames.Part (renderAll texts)

/-! ## Roots and last tokens -/

/-- The root of a name is written with the root of its last token. -/
theorem root_ofParts_append_token (range : SourceRange) (before : List Part) (t : Text)
    {after : List Part} (ha : texts after = []) :
    (ofParts range (before ++ .token t :: after)).root =
      renderAll before ++ (Token.root t ++ renderAll after) := by
  have hedit : Part.editLast? Token.root (ofParts range (before ++ .token t :: after)).shownParts =
      some (before ++ .token (Token.root t) :: after) :=
    Part.editLast?_append_token Token.root before t ha
  rw [root, hedit]
  exact Part.renderAll_append before (.token (Token.root t) :: after)

/-- A name without a token is its own root. -/
theorem root_of_fragments_eq_nil {x : Name} (h : x.fragments = []) : x.root = x.render := by
  rw [root, Part.editLast?_eq_none_iff.mpr h]

/-- The last token is the last fragment. -/
theorem getLast?_fragments_append_token (range : SourceRange) (before : List Part) (t : Text)
    {after : List Part} (ha : texts after = []) :
    (ofParts range (before ++ .token t :: after)).fragments.getLast? = some t := by
  have htexts : (ofParts range (before ++ .token t :: after)).fragments =
      texts before ++ t :: texts after := by
    show texts (before ++ .token t :: after) = _
    simp [texts, Part.text?]
  rw [htexts, ha, List.getLast?_concat]

/-- Identifiers that differ in their last tokens only share a root if these tokens do. -/
theorem shareRoot_ofParts_append_token_iff (range range' : SourceRange) (before : List Part)
    (t u : Text) {after : List Part} (ha : texts after = []) :
    (ofParts range (before ++ .token t :: after)).shareRoot
        (ofParts range' (before ++ .token u :: after)) = true ↔ Token.root t = Token.root u := by
  rw [shareRoot, beq_iff_eq, root_ofParts_append_token range before t ha,
    root_ofParts_append_token range' before u ha]
  constructor
  · intro h
    exact List.append_cancel_right (List.append_cancel_left h)
  · intro h
    rw [h]

/-! ## Variations -/

/-- The last token of the name ends in a full counter. -/
def EndsFull (x : Name) : Prop := ∃ t, x.fragments.getLast? = some t ∧ Token.IsFull t

/-- A name ends in a full counter exactly if its last token does. -/
theorem endsFull_append_token_iff (range : SourceRange) (before : List Part) (t : Text)
    {after : List Part} (ha : texts after = []) :
    (ofParts range (before ++ .token t :: after)).EndsFull ↔ Token.IsFull t := by
  rw [EndsFull, getLast?_fragments_append_token range before t ha]
  simp

/-- A variation shares the root exactly if no name on the way to it ends in a full counter. -/
theorem shareRoot_variation?_iff {k : ℕ} {x y : Name} (h : variation? k x = some y) :
    x.shareRoot y = true ↔ ∀ j < k, ∀ z, variation? j x = some z → ¬ z.EndsFull := by
  by_cases hnone : x.next? = none
  · -- then the name is the only variation of itself
    cases k with
    | zero =>
      obtain rfl : x = y := Option.some.inj h
      simp [shareRoot]
    | succ k => simp [variation?, hnone] at h
  · obtain ⟨before, t, after, ha, hx, hn⟩ := exists_eq_ofParts_of_next? hnone
    have hvar : ∀ j, variation? j x =
        some (ofParts x.range (before ++ .token (Token.variation j t) :: after)) := by
      intro j
      rw [← variation?_ofParts x.range before t ha hn j, ← hx]
    have hroot : x.shareRoot y = true ↔ Token.root t = Token.root (Token.variation k t) := by
      rw [← Option.some.inj ((hvar k).symm.trans h)]
      conv => lhs; rw [hx]
      exact shareRoot_ofParts_append_token_iff x.range x.range before t _ ha
    rw [hroot, eq_comm, Token.root_variation_eq_iff]
    simp only [hvar, Option.some.injEq, forall_eq', endsFull_append_token_iff _ _ _ ha]

/-- The next variation of a token has the same root exactly if the token does not end in a full
counter, and a later one exactly if none on the way to it does. The variations of a name share the
root of the name as long as its last token keeps its root. -/
theorem variations_share_root_iff (s : Text) (x : Name) (k : ℕ) :
    (Token.root (Token.next s) = Token.root s ↔ ¬ Token.IsFull s) ∧
      (Token.root (Token.variation k s) = Token.root s ↔
        ∀ j < k, ¬ Token.IsFull (Token.variation j s)) ∧
      ∀ y, variation? k x = some y →
        (x.shareRoot y = true ↔ ∀ j < k, ∀ z, variation? j x = some z → ¬ z.EndsFull) :=
  ⟨Token.root_next_eq_iff s, Token.root_variation_eq_iff k s, fun _ => shareRoot_variation?_iff⟩

/-- The step to the greatest word keeps the root, the step from there on does not. -/
theorem variations_share_root_until_full :
    let x := ofRaw .unknown "if_x18446744073709551614_".toList
    let full := ofRaw .unknown "if_x18446744073709551615_".toList
    let started := ofRaw .unknown "if_x18446744073709551615₁_".toList
    (variation? 1 x = some full ∧ ∀ j < 1, ∀ z, variation? j x = some z → ¬ z.EndsFull) ∧
      variation? 2 x = some started ∧ ¬ ∀ j < 2, ∀ z, variation? j x = some z → ¬ z.EndsFull := by
  intro x full started
  have hfull : variation? 1 x = some full := rfl
  have hstarted : variation? 2 x = some started := rfl
  have hshared : x.shareRoot full = true := by decide
  have hnot : ¬ x.shareRoot started = true := by decide
  refine ⟨⟨hfull, ?_⟩, hstarted, ?_⟩
  · exact ((variations_share_root_iff [] x 1).2.2 full hfull).mp hshared
  · exact mt ((variations_share_root_iff [] x 2).2.2 started hstarted).mpr hnot

/-- Behind a full counter a new one is started, and the root of the variation is the whole token
with the full counter, which is no part of the root of that token. -/
theorem root_of_full_counter :
    let s := "x18446744073709551615".toList
    let x := ofRaw .unknown s
    let y := ofRaw .unknown "x18446744073709551615₁".toList
    Token.root s = ['x'] ∧ Token.next s = "x18446744073709551615₁".toList ∧
      Token.root (Token.next s) = s ∧ Token.root (Token.next s) ≠ Token.root s ∧
      variation? 1 x = some y ∧ x.shareRoot y = false := by
  refine ⟨?_, ?_, ?_, ?_, rfl, ?_⟩ <;> decide

end MixfixNames.Name
