/-
# Well-Formed Octets

What a reader of octets makes of octets that need not be text. Every sequence of octets is cut
into the octets of characters and malformed parts, and nothing is lost: `reads_units`. So octets in
which no part is malformed are the octets of the text that is read, and an octet of a one-octet
character is read only where it stands.
-/
import Mathlib.Data.Nat.Notation
import MixfixNames.Sequence
import MixfixNames.Text.Basic

namespace MixfixNames.Utf8

/-! ## Octets of characters -/

theorem eq_ofNat_of_toNat_eq {b : UInt8} {n : ℕ} (h : b.toNat = n) : b = UInt8.ofNat n := by
  rw [← h, UInt8.ofNat_toNat]

/-- An octet below 128 belongs to the character with this number alone. -/
theorem toNat_eq_of_mem_utf8EncodeChar {b : UInt8} {c : Char} (hb : b.toNat < 0x80)
    (h : b ∈ String.utf8EncodeChar c) : c.toNat = b.toNat := by
  have hc := toNat_bounds c
  have hhigh : ∀ n, 0x80 ≤ n → n < 256 → b ≠ UInt8.ofNat n := by
    rintro n hl hh rfl
    rw [UInt8.toNat_ofNat_of_lt' hh] at hb
    omega
  rcases Nat.lt_or_ge c.toNat 0x80 with h1 | h1
  · rw [utf8EncodeChar_of_lt_128 h1, List.mem_singleton] at h
    rw [h, UInt8.toNat_ofNat_of_lt' (show _ < 256 by omega)]
  rcases Nat.lt_or_ge c.toNat 0x800 with h2 | h2
  · rw [utf8EncodeChar_of_lt_2048 h1 h2] at h
    simp only [List.mem_cons, List.not_mem_nil, or_false] at h
    rcases h with h | h <;> exact absurd h (hhigh _ (by omega) (by omega))
  rcases Nat.lt_or_ge c.toNat 0x10000 with h3 | h3
  · rw [utf8EncodeChar_of_lt_65536 h2 h3] at h
    simp only [List.mem_cons, List.not_mem_nil, or_false] at h
    rcases h with h | h | h <;> exact absurd h (hhigh _ (by omega) (by omega))
  · rw [utf8EncodeChar_of_ge_65536 h3] at h
    simp only [List.mem_cons, List.not_mem_nil, or_false] at h
    rcases h with h | h | h | h <;> exact absurd h (hhigh _ (by omega) (by omega))

/-- An octet below 128 is among the octets of a text only with its character. -/
theorem mem_of_mem_encode {b : UInt8} {s : Text} (hb : b.toNat < 0x80) (h : b ∈ encode s) :
    Char.ofNat b.toNat ∈ s := by
  obtain ⟨c, hc, hbc⟩ := List.mem_flatMap.mp h
  rwa [← toNat_eq_of_mem_utf8EncodeChar hb hbc, Char.ofNat_toNat]

/-- Different texts have different octets. -/
theorem encode_injective : Function.Injective encode := by
  intro s t h
  rw [← lossy_encode s, h, lossy_encode]

theorem encode_append (s t : Text) : encode (s ++ t) = encode s ++ encode t := by
  simp [encode]

theorem encode_cons (c : Char) (s : Text) :
    encode (c :: s) = String.utf8EncodeChar c ++ encode s := rfl

theorem encode_eq_nil_iff {s : Text} : encode s = [] ↔ s = [] := by
  constructor
  · intro h
    exact encode_injective (h.trans (rfl : encode [] = []).symm)
  · rintro rfl
    rfl

/-! ## Separators of one octet -/

section Separator

variable {c : Char} {b : UInt8}

/-- The octets of a text contain a one-octet character exactly where the text does. -/
theorem mem_encode_iff (hb : b.toNat < 0x80) (hc : String.utf8EncodeChar c = [b]) {s : Text} :
    b ∈ encode s ↔ c ∈ s := by
  have hbc : b ∈ String.utf8EncodeChar c := hc ▸ List.mem_singleton_self b
  constructor
  · intro h
    have hs := mem_of_mem_encode hb h
    rwa [← toNat_eq_of_mem_utf8EncodeChar hb hbc, Char.ofNat_toNat] at hs
  · intro h
    exact List.mem_flatMap.mpr ⟨c, h, hbc⟩

/-- Texts between one-octet separators keep their octets. -/
theorem encode_intercalate (hc : String.utf8EncodeChar c = [b]) (ss : List Text) :
    encode ([c].intercalate ss) = [b].intercalate (ss.map encode) := by
  induction ss with
  | nil => rfl
  | cons s rest ih =>
    by_cases hr : rest = []
    · rw [hr, List.intercalate_singleton, List.map_singleton, List.intercalate_singleton]
    · have hm : rest.map encode ≠ [] := by simpa using hr
      rw [List.intercalate_cons_of_ne_nil hr, List.map_cons, List.intercalate_cons_of_ne_nil hm,
        encode_append, encode_append, ih, encode_cons, hc]
      rfl

/-- Cutting the octets at a one-octet character is cutting the text. -/
theorem splitOn_encode (hb : b.toNat < 0x80) (hc : String.utf8EncodeChar c = [b]) (s : Text) :
    (encode s).splitOn b = (s.splitOn c).map encode := by
  have hpieces : ∀ piece ∈ (s.splitOn c).map encode, b ∉ piece := by
    intro piece hp
    obtain ⟨t, ht, rfl⟩ := List.mem_map.mp hp
    rw [mem_encode_iff hb hc]
    exact Sequence.not_mem_of_mem_splitOn ht
  have hne : (s.splitOn c).map encode ≠ [] := by
    simp
  calc
    (encode s).splitOn b = ([b].intercalate ((s.splitOn c).map encode)).splitOn b := by
      rw [← encode_intercalate hc, List.intercalate_splitOn]
    _ = (s.splitOn c).map encode := List.splitOn_intercalate b hpieces hne

/-- What stands before the last one-octet character of a text is text. -/
theorem exists_encode_of_append (hb : b.toNat < 0x80) (hc : String.utf8EncodeChar c = [b])
    {before behind : List UInt8} {s : Text} (hn : b ∉ behind)
    (h : encode s = before ++ b :: behind) : ∃ t, before = encode t := by
  have hs : c ∈ s := by
    rw [← mem_encode_iff hb hc, h]
    simp
  obtain ⟨⟨t, u⟩, htu⟩ : ∃ cut, Sequence.splitLast? c s = some cut := by
    cases hcut : Sequence.splitLast? c s with
    | none => exact absurd hs (Sequence.splitLast?_eq_none_iff.mp hcut)
    | some cut => exact ⟨cut, rfl⟩
  obtain ⟨rfl, hu⟩ := Sequence.eq_append_of_splitLast? htu
  have he : encode (t ++ c :: u) = encode t ++ b :: encode u := by
    rw [encode_append, encode_cons, hc]
    rfl
  have hcut := Sequence.splitLast?_append_cons (mt (mem_encode_iff hb hc).mp hu) (encode t)
  rw [← he, h, Sequence.splitLast?_append_cons hn, Option.some.injEq, Prod.mk.injEq] at hcut
  exact ⟨t, hcut.1⟩

end Separator

/-! ## Unfinished characters -/

/-- The octets of a character that has begun but is not complete, with what is known then: one of
two, one or two of three, or one to three of four. The bounds keep overlong forms, surrogates and
numbers above the last code point out. -/
inductive Begun : Pending → List UInt8 → Prop where
  | two {b : UInt8} {v : ℕ} (hb : b.toNat = 0xC0 + v) (hl : 2 ≤ v) (hh : v < 32) :
    Begun ⟨v, 0, 0x80, 0xBF⟩ [b]
  | three {b : UInt8} {v low high : ℕ} (hb : b.toNat = 0xE0 + v) (hv : v < 16) (hl : 0x80 ≤ low)
    (hh : high ≤ 0xBF) (h0 : v = 0 → 0xA0 ≤ low) (h13 : v = 13 → high ≤ 0x9F) :
    Begun ⟨v, 1, low, high⟩ [b]
  | threeMore {b c : UInt8} {v : ℕ} (hb : b.toNat = 0xE0 + v / 64) (hc : c.toNat = 0x80 + v % 64)
    (hl : 32 ≤ v) (hh : v < 1024) (hs : v < 0x360 ∨ 0x37F < v) :
    Begun ⟨v, 0, 0x80, 0xBF⟩ [b, c]
  | four {b : UInt8} {v low high : ℕ} (hb : b.toNat = 0xF0 + v) (hv : v < 5) (hl : 0x80 ≤ low)
    (hh : high ≤ 0xBF) (h0 : v = 0 → 0x90 ≤ low) (h4 : v = 4 → high ≤ 0x8F) :
    Begun ⟨v, 2, low, high⟩ [b]
  | fourMore {b c : UInt8} {v : ℕ} (hb : b.toNat = 0xF0 + v / 64) (hc : c.toNat = 0x80 + v % 64)
    (hl : 16 ≤ v) (hh : v < 272) : Begun ⟨v, 1, 0x80, 0xBF⟩ [b, c]
  | fourMost {b c d : UInt8} {v : ℕ} (hb : b.toNat = 0xF0 + v / 4096)
    (hc : c.toNat = 0x80 + v / 64 % 64) (hd : d.toNat = 0x80 + v % 64) (hl : 1024 ≤ v)
    (hh : v < 17408) : Begun ⟨v, 0, 0x80, 0xBF⟩ [b, c, d]

/-- A character has begun only if there was an octet. -/
theorem Begun.ne_nil {p : Pending} {pre : List UInt8} (h : Begun p pre) : pre ≠ [] := by
  cases h <;> exact List.cons_ne_nil _ _

/-- A first octet is a character, is malformed, or begins a character. -/
theorem start_cases (b : UInt8) :
    (∃ c, start b = ([some c], none) ∧ String.utf8EncodeChar c = [b]) ∨ start b = ([none], none) ∨
      ∃ p, start b = ([], some p) ∧ Begun p [b] := by
  have hb : b.toNat < 256 := b.toNat_lt
  unfold start
  simp only
  by_cases h₁ : b.toNat < 0x80
  · refine Or.inl ⟨_, if_pos h₁, ?_⟩
    have hc : (Char.ofNat b.toNat).toNat = b.toNat := Text.toNat_ofNat (Or.inl (by omega))
    rw [utf8EncodeChar_of_lt_128 (by omega), hc, UInt8.ofNat_toNat]
  right
  rw [if_neg h₁]
  by_cases h₂ : b.toNat < 0xC2
  · exact Or.inl (if_pos h₂)
  rw [if_neg h₂]
  by_cases h₃ : b.toNat < 0xE0
  · exact Or.inr ⟨_, if_pos h₃, .two (by omega) (by omega) (by omega)⟩
  rw [if_neg h₃]
  by_cases h₄ : b.toNat = 0xE0
  · exact Or.inr ⟨_, if_pos h₄,
      .three (by omega) (by omega) (by omega) (by omega) (by omega) (by omega)⟩
  rw [if_neg h₄]
  by_cases h₅ : b.toNat = 0xED
  · exact Or.inr ⟨_, if_pos h₅,
      .three (by omega) (by omega) (by omega) (by omega) (by omega) (by omega)⟩
  rw [if_neg h₅]
  by_cases h₆ : b.toNat < 0xF0
  · exact Or.inr ⟨_, if_pos h₆,
      .three (by omega) (by omega) (by omega) (by omega) (by omega) (by omega)⟩
  rw [if_neg h₆]
  by_cases h₇ : b.toNat = 0xF0
  · exact Or.inr ⟨_, if_pos h₇,
      .four (by omega) (by omega) (by omega) (by omega) (by omega) (by omega)⟩
  rw [if_neg h₇]
  by_cases h₈ : b.toNat < 0xF4
  · exact Or.inr ⟨_, if_pos h₈,
      .four (by omega) (by omega) (by omega) (by omega) (by omega) (by omega)⟩
  rw [if_neg h₈]
  by_cases h₉ : b.toNat = 0xF4
  · exact Or.inr ⟨_, if_pos h₉,
      .four (by omega) (by omega) (by omega) (by omega) (by omega) (by omega)⟩
  · exact Or.inl (if_neg h₉)

/-- An octet that fits adds its six bits. -/
theorem step_of_fits {p : Pending} {b : UInt8} (hl : p.low ≤ b.toNat) (hh : b.toNat ≤ p.high) :
    step (some p) b =
      match p.more with
      | 0 => ([some (Char.ofNat (p.value * 64 + (b.toNat - 0x80)))], none)
      | more + 1 => ([], some ⟨p.value * 64 + (b.toNat - 0x80), more, 0x80, 0xBF⟩) := by
  unfold step
  exact if_pos ⟨hl, hh⟩

/-- An octet that fits completes the character or takes it one octet further. -/
theorem step_of_begun {p : Pending} {pre : List UInt8} (h : Begun p pre) {b : UInt8}
    (hl : p.low ≤ b.toNat) (hh : b.toNat ≤ p.high) :
    (∃ c, step (some p) b = ([some c], none) ∧ String.utf8EncodeChar c = pre ++ [b]) ∨
      ∃ q, step (some p) b = ([], some q) ∧ Begun q (pre ++ [b]) := by
  rw [step_of_fits hl hh]
  cases h with
  | @two b₁ v h₁ hv hv' =>
    refine Or.inl ⟨_, rfl, ?_⟩
    simp only at hl hh ⊢
    have hc := Text.toNat_ofNat (n := v * 64 + (b.toNat - 0x80)) (Or.inl (by omega))
    rw [utf8EncodeChar_of_lt_2048 (by omega) (by omega), hc,
      ← eq_ofNat_of_toNat_eq (b := b₁) (by omega), ← eq_ofNat_of_toNat_eq (b := b) (by omega)]
    rfl
  | @three b₁ v low high h₁ hv hlow hhigh h0 h13 =>
    simp only at hl hh
    exact Or.inr ⟨_, rfl, .threeMore (v := v * 64 + (b.toNat - 0x80)) (by omega) (by omega)
      (by omega) (by omega) (by omega)⟩
  | @threeMore b₁ b₂ v h₁ h₂ hv hv' hs =>
    refine Or.inl ⟨_, rfl, ?_⟩
    simp only at hl hh ⊢
    have hvalid : (v * 64 + (b.toNat - 0x80)).isValidChar := by
      rcases hs with hs | hs
      · exact Or.inl (by omega)
      · exact Or.inr (by omega)
    have hc := Text.toNat_ofNat hvalid
    rw [utf8EncodeChar_of_lt_65536 (by omega) (by omega), hc,
      ← eq_ofNat_of_toNat_eq (b := b₁) (by omega), ← eq_ofNat_of_toNat_eq (b := b₂) (by omega),
      ← eq_ofNat_of_toNat_eq (b := b) (by omega)]
    rfl
  | @four b₁ v low high h₁ hv hlow hhigh h0 h4 =>
    simp only at hl hh
    exact Or.inr ⟨_, rfl, .fourMore (v := v * 64 + (b.toNat - 0x80)) (by omega) (by omega)
      (by omega) (by omega)⟩
  | @fourMore b₁ b₂ v h₁ h₂ hv hv' =>
    simp only at hl hh
    exact Or.inr ⟨_, rfl, .fourMost (v := v * 64 + (b.toNat - 0x80)) (by omega) (by omega)
      (by omega) (by omega) (by omega)⟩
  | @fourMost b₁ b₂ b₃ v h₁ h₂ h₃ hv hv' =>
    refine Or.inl ⟨_, rfl, ?_⟩
    simp only at hl hh ⊢
    have hc := Text.toNat_ofNat (n := v * 64 + (b.toNat - 0x80)) (Or.inr (by omega))
    rw [utf8EncodeChar_of_ge_65536 (by omega), hc, ← eq_ofNat_of_toNat_eq (b := b₁) (by omega),
      ← eq_ofNat_of_toNat_eq (b := b₂) (by omega), ← eq_ofNat_of_toNat_eq (b := b₃) (by omega),
      ← eq_ofNat_of_toNat_eq (b := b) (by omega)]
    rfl

/-! ## Reading octets -/

/-- Octets that are cut into the octets of characters and malformed parts, and the units that
they stand for. -/
inductive Reads : List UInt8 → List (Option Char) → Prop where
  | nil : Reads [] []
  | char (c : Char) {bs : List UInt8} {us : List (Option Char)} (h : Reads bs us) :
    Reads (String.utf8EncodeChar c ++ bs) (some c :: us)
  | malformed {part bs : List UInt8} {us : List (Option Char)} (hne : part ≠ [])
    (h : Reads bs us) : Reads (part ++ bs) (none :: us)

/-- A reader between characters reads what follows, and one inside a character reads what it has
already seen of it together with what follows. -/
theorem reads_unitsFrom (bs : List UInt8) :
    Reads bs (unitsFrom none bs) ∧
      ∀ p pre, Begun p pre → Reads (pre ++ bs) (unitsFrom (some p) bs) := by
  -- both states at once, since every octet can lead from one to the other
  induction bs with
  | nil => exact ⟨.nil, fun p pre hp => .malformed hp.ne_nil .nil⟩
  | cons b bs ih =>
    obtain ⟨ihnone, ihsome⟩ := ih
    have hnone : Reads (b :: bs) (unitsFrom none (b :: bs)) := by
      rw [unitsFrom_none_cons]
      rcases start_cases b with ⟨c, hs, hc⟩ | hs | ⟨p, hs, hp⟩
      · rw [hs, ← List.singleton_append, ← hc]
        exact .char c ihnone
      · rw [hs, ← List.singleton_append]
        exact .malformed (List.cons_ne_nil _ _) ihnone
      · rw [hs, ← List.singleton_append]
        exact ihsome p [b] hp
    refine ⟨hnone, ?_⟩
    intro p pre hp
    have hcons : unitsFrom (some p) (b :: bs) =
        (step (some p) b).1 ++ unitsFrom (step (some p) b).2 bs := rfl
    rw [hcons, List.append_cons]
    by_cases hfit : p.low ≤ b.toNat ∧ b.toNat ≤ p.high
    · rcases step_of_begun hp hfit.1 hfit.2 with ⟨c, hs, hc⟩ | ⟨q, hs, hq⟩
      · rw [hs, ← hc]
        exact .char c ihnone
      · rw [hs]
        exact ihsome q (pre ++ [b]) hq
    · -- the octet does not fit: what was read is malformed, and the octet is read again
      have hs : step (some p) b = (none :: (start b).1, (start b).2) := by
        rw [step, if_neg hfit]
      rw [hs, ← List.append_cons]
      exact .malformed hp.ne_nil hnone

/-- Reading loses nothing. -/
theorem reads_units (bs : List UInt8) : Reads bs (units bs) := (reads_unitsFrom bs).1

/-! ## Reading as text -/

/-- Octets without a malformed part are those of the text that is read. -/
theorem eq_encode_of_lossy {bs : List UInt8} (h : replacement ∉ lossy bs) :
    bs = encode (lossy bs) := by
  have hr := reads_units bs
  unfold lossy at h ⊢
  generalize units bs = us at hr h ⊢
  induction hr with
  | nil => rfl
  | @char c bs us _ ih =>
    rw [List.map_cons, List.mem_cons, not_or] at h
    rw [List.map_cons, encode_cons, ← ih h.2, Option.getD_some]
  | malformed => simp at h

/-- The octets of a character other than the replacement that is read stand there. -/
theorem mem_of_mem_utf8EncodeChar {bs : List UInt8} {b : UInt8} {c : Char} (hc : c ≠ replacement)
    (hb : b ∈ String.utf8EncodeChar c) (h : c ∈ lossy bs) : b ∈ bs := by
  have hr := reads_units bs
  unfold lossy at h
  generalize units bs = us at hr h
  induction hr with
  | nil => simp at h
  | @char a bs us _ ih =>
    rcases List.mem_cons.mp h with rfl | h
    · exact List.mem_append_left _ hb
    · exact List.mem_append_right _ (ih h)
  | @malformed part bs us _ _ ih =>
    rcases List.mem_cons.mp h with rfl | h
    · exact absurd rfl hc
    · exact List.mem_append_right _ (ih h)

/-- Only no octets are read as the empty text. -/
theorem lossy_eq_nil_iff {bs : List UInt8} : lossy bs = [] ↔ bs = [] := by
  constructor
  · intro h
    have hbs : bs = encode (lossy bs) := eq_encode_of_lossy (by simp [h])
    rw [hbs, h]
    rfl
  · rintro rfl
    rfl

end MixfixNames.Utf8
