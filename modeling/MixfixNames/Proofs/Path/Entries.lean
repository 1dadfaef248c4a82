/-
# Directory Entries

The name of a directory entry is neither nothing nor one of the two names made of full stops, and
no separator stands in it. Every entry that a path goes through has such a name, and is named by
text if the path is text. The main statement is `components_join_of_forall_normal`: a path that
goes through entries only adds them to every path that it is joined to.
-/
import Mathlib.Data.Nat.Notation
import MixfixNames.Path.Pieces
import MixfixNames.Proofs.Text.WellFormed

namespace MixfixNames

namespace Component

theorem slash_mem_encode_iff {t : Text} : slash ∈ Utf8.encode t ↔ '/' ∈ t :=
  Utf8.mem_encode_iff (by decide) (by decide)

theorem dot_mem_encode_iff {t : Text} : dot ∈ Utf8.encode t ↔ '.' ∈ t :=
  Utf8.mem_encode_iff (by decide) (by decide)

/-! ## Names of entries -/

/-- A name that a directory entry can have. -/
structure IsEntryName (name : List UInt8) : Prop where
  /-- It is not empty. -/
  ne_nil : name ≠ []
  /-- It is not the name of the directory itself. -/
  ne_dot : name ≠ [dot]
  /-- It is not the name of the directory above. -/
  ne_dot_dot : name ≠ [dot, dot]
  /-- No separator stands in it. -/
  slash_notMem : slash ∉ name

/-- Behind the start of a path a piece denotes an entry exactly if it is not one of the special
names, and then the entry of that name. -/
theorem ofPiece?_eq_normal_iff {piece name : List UInt8} :
    ofPiece? piece = some (normal name) ↔
      piece = name ∧ name ≠ [] ∧ name ≠ [dot] ∧ name ≠ [dot, dot] := by
  unfold ofPiece?
  constructor
  · intro h
    split at h
    · cases h
    · next h₁ =>
      split at h
      · cases h
      · next h₂ =>
        cases h
        rw [not_or] at h₁
        exact ⟨rfl, h₁.1, h₁.2, h₂⟩
  · rintro ⟨rfl, h₁, h₂, h₃⟩
    rw [if_neg (not_or.mpr ⟨h₁, h₂⟩), if_neg h₃]

/-- The first piece of a path denotes an entry under the same condition. -/
theorem ofFirstPiece?_eq_normal_iff {piece name : List UInt8} :
    ofFirstPiece? piece = some (normal name) ↔ ofPiece? piece = some (normal name) := by
  unfold ofFirstPiece?
  split
  · next h => simp [h, ofPiece?]
  · split
    · next h => simp [h, ofPiece?]
    · exact Iff.rfl

/-- Only nothing in front of the first separator denotes the root. -/
theorem ofFirstPiece?_eq_root_iff {piece : List UInt8} :
    ofFirstPiece? piece = some root ↔ piece = [] := by
  unfold ofFirstPiece?
  by_cases h : piece = []
  · simp [h]
  · rw [if_neg h]
    split
    · simp [h]
    · simp [h, ofPiece?_ne_root]

theorem IsEntryName.ofPiece? {name : List UInt8} (h : IsEntryName name) :
    Component.ofPiece? name = some (normal name) :=
  ofPiece?_eq_normal_iff.mpr ⟨rfl, h.ne_nil, h.ne_dot, h.ne_dot_dot⟩

/-- What is left of an entry's name before a full stop denotes nothing, the directory above, or
an entry. -/
theorem isEntryName_of_append {stem behind : List UInt8} (h : IsEntryName (stem ++ behind))
    (hn : stem ≠ []) (h₁ : stem ≠ [dot]) (h₂ : stem ≠ [dot, dot]) : IsEntryName stem where
  ne_nil := hn
  ne_dot := h₁
  ne_dot_dot := h₂
  slash_notMem hs := h.slash_notMem (List.mem_append_left _ hs)

/-- The entry that a text names. -/
def ofText (t : Text) : Component := normal (Utf8.encode t)

theorem text?_ofText (t : Text) : (ofText t).text? = some t := by
  rw [ofText, text?, Utf8.lossy_encode]

end Component

namespace Path

open Component

/-! ## The entries of a path -/

/-- An entry of a path is one of its pieces. -/
theorem mem_splitOn_of_mem_components {p : Path} {name : List UInt8}
    (h : normal name ∈ p.components) :
    name ∈ p.bytes.splitOn slash ∧ Component.ofPiece? name = some (normal name) := by
  obtain ⟨piece, hm, hc⟩ := List.mem_filterMap.mp h
  unfold pieces at hm
  split at hm
  · cases hm
  · cases hs : p.bytes.splitOn slash with
    | nil => exact absurd hs (List.splitOn_ne_nil slash p.bytes)
    | cons first rest =>
      rw [hs, annotate, List.mem_cons, List.mem_map] at hm
      rcases hm with rfl | ⟨b, hb, rfl⟩
      · have hp := ofFirstPiece?_eq_normal_iff.mp hc
        obtain ⟨rfl, -⟩ := ofPiece?_eq_normal_iff.mp hp
        exact ⟨List.mem_cons_self, hp⟩
      · obtain ⟨rfl, -⟩ := ofPiece?_eq_normal_iff.mp hc
        exact ⟨List.mem_cons_of_mem _ hb, hc⟩

/-- The entries of a path have names of entries. -/
theorem isEntryName_of_mem_components {p : Path} {name : List UInt8}
    (h : normal name ∈ p.components) : IsEntryName name := by
  obtain ⟨hs, hp⟩ := mem_splitOn_of_mem_components h
  obtain ⟨-, h₁, h₂, h₃⟩ := ofPiece?_eq_normal_iff.mp hp
  exact ⟨h₁, h₂, h₃, Sequence.not_mem_of_mem_splitOn hs⟩

/-- The entries of a path that is text are named by texts. -/
theorem exists_eq_encode_of_mem_components {s : Text} {name : List UInt8}
    (h : normal name ∈ (Path.ofText s).components) : ∃ t, name = Utf8.encode t := by
  obtain ⟨hs, -⟩ := mem_splitOn_of_mem_components h
  have hpieces : (Path.ofText s).bytes.splitOn slash = (s.splitOn '/').map Utf8.encode :=
    Utf8.splitOn_encode (by decide) (by decide) s
  rw [hpieces] at hs
  obtain ⟨t, -, ht⟩ := List.mem_map.mp hs
  exact ⟨t, ht.symm⟩

/-! ## Paths that go through entries only -/

/-- An absolute path starts with the root. -/
theorem components_head_of_isAbsolute {p : Path} (h : p.isAbsolute = true) :
    p.components.head? = some .root := by
  obtain ⟨bytes⟩ := p
  cases bytes with
  | nil => simp [isAbsolute] at h
  | cons b bytes =>
    have hb : b = slash := by simpa [isAbsolute] using h
    subst hb
    rw [components, pieces, if_neg (List.cons_ne_nil _ _), List.splitOn_cons_eq_if_modifyHead,
      if_pos (beq_self_eq_true slash)]
    rfl

/-- Without the root and the starting directory a path has the same components behind a
separator. -/
theorem componentsBehind_of_notMem {p : Path} (hr : Component.root ∉ p.components)
    (hc : Component.current ∉ p.components) : componentsBehind p.bytes = p.components := by
  unfold components pieces at hr hc ⊢
  split
  · next h =>
    rw [h]
    rfl
  · next h =>
    rw [if_neg h] at hr hc
    unfold componentsBehind
    cases hs : p.bytes.splitOn slash with
    | nil => rfl
    | cons first rest =>
      rw [hs, annotate] at hr hc
      have hfirst : Component.ofFirstPiece? first = Component.ofPiece? first := by
        unfold Component.ofFirstPiece? at hr hc ⊢
        split
        · next h₁ => simp [h₁] at hr
        · next h₁ =>
          split
          · next h₂ => simp [h₂] at hc
          · rfl
      simp only [annotate, List.filterMap_cons, hfirst, List.filterMap_map, Function.comp_def]

/-- A path that goes through entries only adds them to every path that it is joined to. -/
theorem components_join_of_forall_normal {q : Path}
    (h : ∀ c ∈ q.components, ∃ name, c = normal name) (p : Path) :
    (p.join q).components = p.components ++ q.components := by
  have hr : Component.root ∉ q.components := by
    intro hm
    obtain ⟨name, hn⟩ := h _ hm
    cases hn
  have hc : Component.current ∉ q.components := by
    intro hm
    obtain ⟨name, hn⟩ := h _ hm
    cases hn
  have ha : q.isAbsolute = false := by
    rw [← Bool.not_eq_true]
    intro ha
    exact hr (List.mem_of_head? (components_head_of_isAbsolute ha))
  -- nothing is put between an empty path and what follows, so it is a case of its own
  by_cases hp : p.bytes = []
  · have hj : p.join q = q := by
      simp [join, ha, hp]
    have hpc : p.components = [] := by
      rw [components, pieces, if_pos hp]
      rfl
    rw [hj, hpc, List.nil_append]
  · rw [components_join hp ha, componentsBehind_of_notMem hr hc]

/-- The path that is the name of an entry goes to that entry. -/
theorem components_of_isEntryName {name : List UInt8} (h : IsEntryName name) :
    components ⟨name⟩ = [normal name] := by
  have hf := ofFirstPiece?_eq_normal_iff.mpr h.ofPiece?
  rw [components, pieces, if_neg h.ne_nil, List.splitOn_eq_singleton h.slash_notMem, annotate]
  simp [hf]

/-- Going on to an entry adds it. -/
theorem components_join_ofText {t : Text} (h : IsEntryName (Utf8.encode t)) (p : Path) :
    (p.join (Path.ofText t)).components = p.components ++ [Component.ofText t] := by
  have hc : (Path.ofText t).components = [Component.ofText t] := components_of_isEntryName h
  rw [components_join_of_forall_normal _ p, hc]
  intro c hm
  rw [hc, List.mem_singleton] at hm
  exact ⟨_, hm⟩

/-- Going on to one entry after the other adds them in order. -/
theorem components_foldl_join {ts : List Text} (h : ∀ t ∈ ts, IsEntryName (Utf8.encode t))
    (p : Path) :
    (ts.foldl (fun p t => p.join (Path.ofText t)) p).components =
      p.components ++ ts.map Component.ofText := by
  induction ts generalizing p with
  | nil => simp
  | cons t ts ih =>
    have ht := h t List.mem_cons_self
    rw [List.foldl_cons, ih fun u hu => h u (List.mem_cons_of_mem _ hu),
      components_join_ofText ht, List.map_cons, List.append_assoc, List.singleton_append]

/-! ## Absolute paths -/

/-- Going on from a path leads to the top exactly if either path starts there. -/
theorem isAbsolute_join (p q : Path) : (p.join q).isAbsolute = (p.isAbsolute || q.isAbsolute) := by
  obtain ⟨bytes⟩ := p
  by_cases hq : q.isAbsolute = true
  · rw [join_of_isAbsolute hq, hq, Bool.or_true]
  · rw [Bool.not_eq_true] at hq
    cases bytes with
    | nil =>
      have hnil : isAbsolute ⟨[]⟩ = false := rfl
      simp [join, hq, hnil]
    | cons b bytes =>
      simp only [join, hq, Bool.false_eq_true, if_false, Bool.or_false]
      split <;> rfl

/-- Joining texts leads to an absolute path if one of them is absolute, or the path was. -/
theorem isAbsolute_foldl_join (ts : List Text) (p : Path) :
    (ts.foldl (fun p t => p.join (Path.ofText t)) p).isAbsolute =
      (p.isAbsolute || ts.any fun t => (Path.ofText t).isAbsolute) := by
  induction ts generalizing p with
  | nil => simp
  | cons t ts ih => rw [List.foldl_cons, ih, isAbsolute_join, List.any_cons, Bool.or_assoc]

/-- A text is an absolute path exactly if it starts with a separator. -/
theorem isAbsolute_ofText_iff {t : Text} :
    (Path.ofText t).isAbsolute = true ↔ t.head? = some '/' := by
  cases t with
  | nil => simp [Path.ofText, isAbsolute, Utf8.encode]
  | cons c t =>
    have hne : Utf8.encode [c] ≠ [] := mt Utf8.encode_eq_nil_iff.mp (List.cons_ne_nil c [])
    obtain ⟨b, bs, hb⟩ := List.exists_cons_of_ne_nil hne
    have hbytes : (Path.ofText (c :: t)).bytes = b :: (bs ++ Utf8.encode t) := by
      rw [Path.ofText, ← List.singleton_append, Utf8.encode_append, hb, List.cons_append]
    have hslash : slash ∈ Utf8.encode [c] ↔ c = '/' := by
      rw [slash_mem_encode_iff, List.mem_singleton, eq_comm]
    simp only [isAbsolute, hbytes, List.head?_cons, beq_iff_eq, Option.some.injEq]
    constructor
    · rintro rfl
      exact hslash.mp (by rw [hb]; exact List.mem_cons_self)
    · rintro rfl
      exact (List.cons.inj hb).1.symm

/-- From every directory a path leads on below that directory, as far as components tell, exactly if
it does not start at the top. -/
theorem forall_isPrefix_join_iff {q : Path} :
    (∀ p : Path, p.components <+: (p.join q).components) ↔ q.isAbsolute = false := by
  constructor
  · intro h
    rw [← Bool.not_eq_true]
    intro hq
    -- the directory that paths start from is not below the top
    have hcurrent : (Path.ofText ['.']).components = [Component.current] := by decide
    obtain ⟨rest, hrest⟩ := h (Path.ofText ['.'])
    have hhead := components_head_of_isAbsolute hq
    rw [join_of_isAbsolute hq, hcurrent] at hrest
    rw [← hrest] at hhead
    cases hhead
  · intro hq p
    by_cases hp : p.bytes = []
    · have hpc : p.components = [] := by
        rw [components, pieces, if_pos hp]
        rfl
      rw [hpc]
      exact List.nil_prefix
    · rw [components_join hp hq]
      exact List.prefix_append _ _

end Path

end MixfixNames
