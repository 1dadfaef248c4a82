/-
# Texts and Their Octets

Texts are lists of characters, ordered by code point, so every rule about texts is a rule about
lists. Numbers are written in decimal without leading zeros.

The octets of a text are those of UTF-8. A reader of octets is in one of two states: between
characters, or inside one, where it knows how many octets are still due and in which interval the
next one has to lie. An octet that does not fit ends the character before it, which is then
malformed, and is read again as a first octet; so each maximal malformed part counts as one
malformed unit. The main statement is `decode?_encode`: the octets of a text are well formed and
denote that text.
-/

namespace MixfixNames

/-- A text is the list of its characters. -/
abbrev Text := List Char

/-- A text has the same hash whatever other instances for characters are in reach. -/
instance hashableChar : Hashable Char := instHashableChar

/-- The greatest number that fits a machine word of 64 bits. -/
def wordMax : Nat := 18446744073709551615

namespace Text

/-- The decimal numeral of `n`, without leading zeros. -/
def decimal (n : Nat) : Text := Nat.toDigits 10 n

/-- The two truth values as words. -/
def truth (b : Bool) : Text := if b then "true".toList else "false".toList

/-- Texts put one after the other with `sep` between each two. -/
def join (sep : Text) (texts : List Text) : Text := sep.intercalate texts

/-- The character of a code point has that code point. -/
theorem toNat_ofNat {n : Nat} (h : n.isValidChar) : (Char.ofNat n).toNat = n := by
  rw [Char.ofNat, dif_pos h]
  rfl

end Text

end MixfixNames

namespace MixfixNames.Utf8

/-! ## Writing -/

/-- The octets of a text. -/
def encode (s : Text) : List UInt8 := s.flatMap String.utf8EncodeChar

/-- A code point is below the surrogates, or above them and at most the last one. -/
theorem toNat_bounds (c : Char) :
    c.toNat < 0xD800 ∨ (0xDFFF < c.toNat ∧ c.toNat < 0x110000) := by
  have := c.valid
  rcases this with h | h
  · left; exact h
  · right; exact h

section Lengths

variable {c : Char}

/-- A code point below 128 is an octet of its own. -/
theorem utf8EncodeChar_of_lt_128 (h : c.toNat < 0x80) :
    String.utf8EncodeChar c = [UInt8.ofNat c.toNat] := by
  unfold String.utf8EncodeChar
  rw [Char.toNat] at h ⊢
  exact if_pos (by omega)

/-- A code point below 2048 has five bits in the first of two octets. -/
theorem utf8EncodeChar_of_lt_2048 (hl : 0x80 ≤ c.toNat) (hh : c.toNat < 0x800) :
    String.utf8EncodeChar c =
      [UInt8.ofNat (0xC0 + c.toNat / 64), UInt8.ofNat (0x80 + c.toNat % 64)] := by
  unfold String.utf8EncodeChar
  rw [Char.toNat] at hl hh ⊢
  generalize c.val.toNat = n at hl hh
  have hfirst : n / 64 % 32 + 192 = 0xC0 + n / 64 := by omega
  simp only
  rw [if_neg (by omega), if_pos (by omega), hfirst, Nat.add_comm (n % 64)]

/-- A code point below 65536 has four bits in the first of three octets. -/
theorem utf8EncodeChar_of_lt_65536 (hl : 0x800 ≤ c.toNat) (hh : c.toNat < 0x10000) :
    String.utf8EncodeChar c =
      [UInt8.ofNat (0xE0 + c.toNat / 4096), UInt8.ofNat (0x80 + c.toNat / 64 % 64),
        UInt8.ofNat (0x80 + c.toNat % 64)] := by
  unfold String.utf8EncodeChar
  rw [Char.toNat] at hl hh ⊢
  generalize c.val.toNat = n at hl hh
  have hfirst : n / 4096 % 16 + 224 = 0xE0 + n / 4096 := by omega
  simp only
  rw [if_neg (by omega), if_neg (by omega), if_pos (by omega), hfirst, Nat.add_comm (n % 64),
    Nat.add_comm (n / 64 % 64)]

/-- A code point from 65536 on has three bits in the first of four octets. -/
theorem utf8EncodeChar_of_ge_65536 (h : 0x10000 ≤ c.toNat) :
    String.utf8EncodeChar c =
      [UInt8.ofNat (0xF0 + c.toNat / 262144), UInt8.ofNat (0x80 + c.toNat / 4096 % 64),
        UInt8.ofNat (0x80 + c.toNat / 64 % 64), UInt8.ofNat (0x80 + c.toNat % 64)] := by
  have hbounds := toNat_bounds c
  unfold String.utf8EncodeChar
  rw [Char.toNat] at h hbounds ⊢
  generalize c.val.toNat = n at h hbounds
  have hfirst : n / 262144 % 8 + 240 = 0xF0 + n / 262144 := by omega
  simp only
  rw [if_neg (by omega), if_neg (by omega), if_neg (by omega), hfirst, Nat.add_comm (n % 64),
    Nat.add_comm (n / 64 % 64), Nat.add_comm (n / 4096 % 64)]

end Lengths

/-! ## Reading -/

/-- What is known inside a character: the bits read so far, the number of octets still due, and
the least and greatest value of the next one. -/
structure Pending where
  /-- The number made of the bits read so far. -/
  value : Nat
  /-- How many octets are still due behind the next one. -/
  more : Nat
  /-- The least value of the next octet. -/
  low : Nat
  /-- The greatest value of the next octet. -/
  high : Nat
  deriving DecidableEq, Repr

/-- Reads a first octet. The intervals for the second octet exclude overlong forms, surrogates
and numbers above the last code point. A unit is a character or, as `none`, a malformed part. -/
def start (b : UInt8) : List (Option Char) × Option Pending :=
  let n := b.toNat
  if n < 0x80 then ([some (Char.ofNat n)], none)
  else if n < 0xC2 then ([none], none)
  else if n < 0xE0 then ([], some ⟨n - 0xC0, 0, 0x80, 0xBF⟩)
  else if n = 0xE0 then ([], some ⟨0, 1, 0xA0, 0xBF⟩)
  else if n = 0xED then ([], some ⟨n - 0xE0, 1, 0x80, 0x9F⟩)
  else if n < 0xF0 then ([], some ⟨n - 0xE0, 1, 0x80, 0xBF⟩)
  else if n = 0xF0 then ([], some ⟨0, 2, 0x90, 0xBF⟩)
  else if n < 0xF4 then ([], some ⟨n - 0xF0, 2, 0x80, 0xBF⟩)
  else if n = 0xF4 then ([], some ⟨4, 2, 0x80, 0x8F⟩)
  else ([none], none)

/-- Reads one octet: the units that it completes, and the state behind it. -/
def step : Option Pending → UInt8 → List (Option Char) × Option Pending
  | none, b => start b
  | some p, b =>
    if p.low ≤ b.toNat ∧ b.toNat ≤ p.high then
      let value := p.value * 64 + (b.toNat - 0x80)
      match p.more with
      | 0 => ([some (Char.ofNat value)], none)
      | more + 1 => ([], some ⟨value, more, 0x80, 0xBF⟩)
    else
      (none :: (start b).1, (start b).2)

/-- The units of a sequence of octets that is read from a given state. A character that the end
cuts short is malformed. -/
def unitsFrom : Option Pending → List UInt8 → List (Option Char)
  | none, [] => []
  | some _, [] => [none]
  | state, b :: bs => (step state b).1 ++ unitsFrom (step state b).2 bs

/-- The characters and malformed parts of a sequence of octets, in order. -/
def units (bs : List UInt8) : List (Option Char) := unitsFrom none bs

/-- The character that stands for a malformed part. -/
def replacement : Char := Char.ofNat 0xFFFD

/-- The text of a sequence of octets, with one replacement character for each maximal malformed
part. -/
def lossy (bs : List UInt8) : Text := (units bs).map fun u => u.getD replacement

/-- The text of a well-formed sequence of octets. -/
def decode? (bs : List UInt8) : Option Text := (units bs).mapM id

/-! ## Reading what was written -/

/-- An octet that fits goes on with the pending character. -/
theorem unitsFrom_some_cons {p : Pending} {b : UInt8} (hl : p.low ≤ b.toNat)
    (hh : b.toNat ≤ p.high) (bs : List UInt8) :
    unitsFrom (some p) (b :: bs) =
      match p.more with
      | 0 => some (Char.ofNat (p.value * 64 + (b.toNat - 0x80))) :: unitsFrom none bs
      | more + 1 => unitsFrom (some ⟨p.value * 64 + (b.toNat - 0x80), more, 0x80, 0xBF⟩) bs := by
  obtain ⟨value, more, low, high⟩ := p
  cases more <;> simp_all [unitsFrom, step]

/-- Between characters an octet is read as a first octet. -/
theorem unitsFrom_none_cons {b : UInt8} (bs : List UInt8) :
    unitsFrom none (b :: bs) = (start b).1 ++ unitsFrom (start b).2 bs := rfl

/-- The last octet of a character completes it with its six bits. -/
theorem unitsFrom_last {value low high d : Nat} (hd : d < 64) (hl : low ≤ 0x80 + d)
    (hh : 0x80 + d ≤ high) (bs : List UInt8) :
    unitsFrom (some ⟨value, 0, low, high⟩) (UInt8.ofNat (0x80 + d) :: bs) =
      some (Char.ofNat (value * 64 + d)) :: unitsFrom none bs := by
  have h : (UInt8.ofNat (0x80 + d)).toNat = 0x80 + d :=
    UInt8.toNat_ofNat_of_lt' (show _ < 256 by omega)
  rw [unitsFrom_some_cons (show low ≤ _ from h.symm ▸ hl) (show _ ≤ high from h.symm ▸ hh)]
  simp only [h, Nat.add_sub_cancel_left]

/-- An octet in the middle of a character adds its six bits, and then any octet may follow that
goes on with a character. -/
theorem unitsFrom_middle {value low high d : Nat} (more : Nat) (hd : d < 64)
    (hl : low ≤ 0x80 + d) (hh : 0x80 + d ≤ high) (bs : List UInt8) :
    unitsFrom (some ⟨value, more + 1, low, high⟩) (UInt8.ofNat (0x80 + d) :: bs) =
      unitsFrom (some ⟨value * 64 + d, more, 0x80, 0xBF⟩) bs := by
  have h : (UInt8.ofNat (0x80 + d)).toNat = 0x80 + d :=
    UInt8.toNat_ofNat_of_lt' (show _ < 256 by omega)
  rw [unitsFrom_some_cons (show low ≤ _ from h.symm ▸ hl) (show _ ≤ high from h.symm ▸ hh)]
  simp only [h, Nat.add_sub_cancel_left]

/-! ### First octets -/

/-- A number below 128 is a character by itself. -/
theorem start_of_lt_128 {n : Nat} (h : n < 0x80) :
    start (UInt8.ofNat n) = ([some (Char.ofNat n)], none) := by
  unfold start
  rw [UInt8.toNat_ofNat_of_lt' (show _ < 256 by omega)]
  exact if_pos h

/-- The first of two octets leaves nothing open about the second one. -/
theorem start_of_two {v : Nat} (hl : 2 ≤ v) (hh : v < 32) :
    start (UInt8.ofNat (0xC0 + v)) = ([], some ⟨v, 0, 0x80, 0xBF⟩) := by
  unfold start
  rw [UInt8.toNat_ofNat_of_lt' (show _ < 256 by omega), if_neg (by omega), if_neg (by omega),
    if_pos (by omega), Nat.add_sub_cancel_left]

/-- The first of three octets admits every second one that makes the character neither overlong
nor a surrogate. -/
theorem start_of_three {v d : Nat} (hv : v < 16) (hd : d < 64) (hlong : v = 0 → 32 ≤ d)
    (hsurrogate : v = 13 → d < 32) :
    ∃ low high, start (UInt8.ofNat (0xE0 + v)) = ([], some ⟨v, 1, low, high⟩) ∧
      low ≤ 0x80 + d ∧ 0x80 + d ≤ high := by
  unfold start
  rw [UInt8.toNat_ofNat_of_lt' (show _ < 256 by omega), if_neg (by omega), if_neg (by omega),
    if_neg (by omega)]
  by_cases h0 : v = 0
  · exact ⟨0xA0, 0xBF, by rw [if_pos (by omega), h0], by omega, by omega⟩
  · rw [if_neg (by omega), Nat.add_sub_cancel_left]
    by_cases h13 : v = 13
    · exact ⟨0x80, 0x9F, if_pos (by omega), by omega, by omega⟩
    · exact ⟨0x80, 0xBF, by rw [if_neg (by omega), if_pos (by omega)], by omega, by omega⟩

/-- The first of four octets admits every second one that makes the character neither overlong nor
greater than the last code point. -/
theorem start_of_four {v d : Nat} (hv : v < 5) (hd : d < 64) (hlong : v = 0 → 16 ≤ d)
    (hlast : v = 4 → d < 16) :
    ∃ low high, start (UInt8.ofNat (0xF0 + v)) = ([], some ⟨v, 2, low, high⟩) ∧
      low ≤ 0x80 + d ∧ 0x80 + d ≤ high := by
  unfold start
  rw [UInt8.toNat_ofNat_of_lt' (show _ < 256 by omega), if_neg (by omega), if_neg (by omega),
    if_neg (by omega), if_neg (by omega), if_neg (by omega), if_neg (by omega)]
  by_cases h0 : v = 0
  · exact ⟨0x90, 0xBF, by rw [if_pos (by omega), h0], by omega, by omega⟩
  · rw [if_neg (by omega), Nat.add_sub_cancel_left]
    by_cases h4 : v = 4
    · exact ⟨0x80, 0x8F, by rw [if_neg (by omega), if_pos (by omega), h4], by omega, by omega⟩
    · exact ⟨0x80, 0xBF, if_pos (by omega), by omega, by omega⟩

/-! ### Characters and texts -/

/-- The octets of a character are read back as that character, whatever follows. -/
theorem unitsFrom_utf8EncodeChar (c : Char) (bs : List UInt8) :
    unitsFrom none (String.utf8EncodeChar c ++ bs) = some c :: unitsFrom none bs := by
  have hbounds := toNat_bounds c
  have hc : Char.ofNat c.toNat = c := Char.ofNat_toNat c
  rcases Nat.lt_or_ge c.toNat 0x80 with h1 | h1
  · rw [utf8EncodeChar_of_lt_128 h1, List.singleton_append, unitsFrom_none_cons,
      start_of_lt_128 h1, hc, List.singleton_append]
  rcases Nat.lt_or_ge c.toNat 0x800 with h2 | h2
  · rw [utf8EncodeChar_of_lt_2048 h1 h2]
    generalize c.toNat = n at h1 h2 hc
    have hn : n / 64 * 64 + n % 64 = n := by omega
    simp only [List.cons_append, List.nil_append]
    rw [unitsFrom_none_cons, start_of_two (by omega) (by omega), List.nil_append,
      unitsFrom_last (by omega) (by omega) (by omega), hn, hc]
  rcases Nat.lt_or_ge c.toNat 0x10000 with h3 | h3
  · rw [utf8EncodeChar_of_lt_65536 h2 h3]
    generalize c.toNat = n at h2 h3 hc hbounds
    have hn : (n / 4096 * 64 + n / 64 % 64) * 64 + n % 64 = n := by omega
    obtain ⟨low, high, hstart, hlow, hhigh⟩ :=
      start_of_three (v := n / 4096) (d := n / 64 % 64) (by omega) (by omega) (by omega) (by omega)
    simp only [List.cons_append, List.nil_append]
    rw [unitsFrom_none_cons, hstart, List.nil_append,
      unitsFrom_middle 0 (by omega) hlow hhigh,
      unitsFrom_last (by omega) (by omega) (by omega), hn, hc]
  · rw [utf8EncodeChar_of_ge_65536 h3]
    generalize c.toNat = n at h3 hc hbounds
    have hn : ((n / 262144 * 64 + n / 4096 % 64) * 64 + n / 64 % 64) * 64 + n % 64 = n := by omega
    obtain ⟨low, high, hstart, hlow, hhigh⟩ :=
      start_of_four (v := n / 262144) (d := n / 4096 % 64) (by omega) (by omega) (by omega)
        (by omega)
    simp only [List.cons_append, List.nil_append]
    rw [unitsFrom_none_cons, hstart, List.nil_append,
      unitsFrom_middle 1 (by omega) hlow hhigh,
      unitsFrom_middle 0 (by omega) (by omega) (by omega),
      unitsFrom_last (by omega) (by omega) (by omega), hn, hc]

/-- The octets of a text are read back character by character. -/
theorem units_encode (s : Text) : units (encode s) = s.map some := by
  unfold units
  induction s with
  | nil => rfl
  | cons c s ih =>
    rw [encode, List.flatMap_cons, unitsFrom_utf8EncodeChar, List.map_cons]
    rw [encode] at ih
    rw [ih]

/-- Lossy reading loses nothing of a text. -/
theorem lossy_encode (s : Text) : lossy (encode s) = s := by
  simp [lossy, units_encode, Function.comp_def]

/-- The octets of a text are well formed and denote it. -/
theorem decode?_encode (s : Text) : decode? (encode s) = some s := by
  rw [decode?, units_encode]
  induction s with
  | nil => rfl
  | cons c s ih => simp_all

end MixfixNames.Utf8
