/-
# The Shape of Raw Identifiers

The shape of a name is decided by its holes: which ends are open, whether it is an operator and how
many arguments it takes. In the parts of a raw identifier every hole is an underscore of the text
and no token holds another one, so all of this can be read off the text without cutting it. The main
statement, `shape_ofRaw`, says how; only the wildcard, which is a token although it is an
underscore, is an exception. Fixities themselves are exclusive: parts that are not empty have
exactly one of the four.
-/
import MixfixNames.Name.Shape
import MixfixNames.Proofs.Name.RawParts

namespace MixfixNames

theorem Part.isHole_iff {p : Part} : p.isHole = true ↔ p = hole := by
  cases p <;> simp [isHole]

/-! ## Fixities and open ends -/

namespace Fixity

/-- The four fixities. -/
def all : List Fixity := [prefixOp, postfixOp, infixOp, nonfix]

/-- Whether the first part is a hole. -/
def opensFirst : Fixity → Bool
  | prefixOp => false
  | postfixOp => true
  | infixOp => true
  | nonfix => false

/-- Whether the last part is a hole. -/
def opensLast : Fixity → Bool
  | prefixOp => true
  | postfixOp => false
  | infixOp => true
  | nonfix => false

/-- The fixity says of both ends whether they are holes. -/
theorem ofEnds_eq_iff {first last : Part} {f : Fixity} :
    ofEnds first last = f ↔
      (first = .hole ↔ f.opensFirst = true) ∧ (last = .hole ↔ f.opensLast = true) := by
  rw [← Part.isHole_iff, ← Part.isHole_iff, ofEnds]
  cases first.isHole <;> cases last.isHole <;> cases f <;> decide

/-- A fixity says of each end of the parts whether it is a hole. -/
theorem of?_eq_some_iff {ps : List Part} {f : Fixity} :
    of? ps = some f ↔ ps ≠ [] ∧ (ps.head? = some .hole ↔ f.opensFirst = true) ∧
      (ps.getLast? = some .hole ↔ f.opensLast = true) := by
  cases ps with
  | nil => simp [of?]
  | cons p ps => simp [of?, List.getLast?_cons, ofEnds_eq_iff]

/-- Parts that are not empty have one of the fixities and no other. -/
theorem countP_all (ps : List Part) :
    all.countP (fun f => of? ps == some f) = if ps = [] then 0 else 1 := by
  cases hf : of? ps with
  | none =>
    rw [if_pos (of?_eq_none_iff.mp hf)]
    rfl
  | some f =>
    have hne : ps ≠ [] := by
      rw [Ne, ← of?_eq_none_iff, hf]
      exact Option.some_ne_none f
    rw [if_neg hne]
    cases f <;> rfl

end Fixity

/-! ## Parts as they are written -/

namespace Part

/-- An operator is open if there is a hole at one of its ends. -/
theorem isOpen_iff_ends {ps : List Part} :
    isOpen ps = true ↔
      isOperator ps = true ∧ (ps.head? = some hole ∨ ps.getLast? = some hole) := by
  simp [isOpen, Option.any_eq_true, isHole_iff]

section Written

variable {ps : List Part} (h : ∀ t ∈ texts ps, t ≠ [] ∧ underscore ∉ t)

include h

/-- Something is written of every part, and an underscore only of a hole. -/
theorem render_of_mem {p : Part} (hp : p ∈ ps) :
    p.render ≠ [] ∧ (underscore ∈ p.render → p = hole) := by
  cases p with
  | hole => exact ⟨List.cons_ne_nil _ _, fun _ => rfl⟩
  | token t =>
    obtain ⟨hne, hnot⟩ := h t (List.mem_filterMap.mpr ⟨_, hp, rfl⟩)
    exact ⟨hne, fun hmem => absurd hmem hnot⟩

/-- As many underscores are written as there are holes. -/
theorem count_renderAll : (renderAll ps).count underscore = holeCount ps := by
  induction ps with
  | nil => rfl
  | cons p ps ih =>
    have hsub : ∀ t ∈ texts ps, t ∈ texts (p :: ps) := fun t ht =>
      ((List.sublist_cons_self p ps).filterMap text?).subset ht
    have hps : (ps.flatMap render).count underscore = ps.countP isHole :=
      ih fun t ht => h t (hsub t ht)
    rw [renderAll, List.flatMap_cons, List.count_append, hps, holeCount, List.countP_cons,
      Nat.add_comm]
    congr 1
    cases p with
    | hole => rfl
    | token t => exact List.count_eq_zero.mpr (h t List.mem_cons_self).2

/-- What is written starts with an underscore exactly if the parts start with a hole. -/
theorem head?_renderAll_iff : (renderAll ps).head? = some underscore ↔ ps.head? = some hole := by
  cases ps with
  | nil => simp [renderAll]
  | cons p ps =>
    obtain ⟨hne, hmem⟩ := render_of_mem h List.mem_cons_self
    rw [renderAll, List.flatMap_cons, List.head?_append_of_ne_nil _ hne, List.head?_cons,
      Option.some.injEq]
    constructor
    · exact fun hhead => hmem (List.mem_of_mem_head? hhead)
    · rintro rfl
      rfl

/-- What is written ends in an underscore exactly if the parts end in a hole. -/
theorem getLast?_renderAll_iff :
    (renderAll ps).getLast? = some underscore ↔ ps.getLast? = some hole := by
  rcases List.eq_nil_or_concat' ps with rfl | ⟨init, p, rfl⟩
  · simp [renderAll]
  · obtain ⟨hne, hmem⟩ := render_of_mem h (List.mem_append_right init List.mem_cons_self)
    have hlast : renderAll [p] = p.render := List.append_nil _
    rw [renderAll_append, hlast, List.getLast?_append_of_ne_nil _ hne, List.getLast?_concat,
      Option.some.injEq]
    constructor
    · exact fun h => hmem (List.mem_of_getLast? h)
    · rintro rfl
      rfl

/-- Underscores are written for holes alone. -/
theorem hole_mem_iff : hole ∈ ps ↔ underscore ∈ renderAll ps := by
  rw [← List.count_pos_iff (a := underscore), count_renderAll h, holeCount, List.countP_pos_iff]
  simp [isHole_iff]

theorem renderAll_eq_nil_iff : renderAll ps = [] ↔ ps = [] := by
  rw [renderAll, List.flatMap_eq_nil_iff]
  constructor
  · exact fun hnil => List.eq_nil_iff_forall_not_mem.mpr fun p hp =>
      (render_of_mem h hp).1 (hnil p hp)
  · rintro rfl
    exact fun _ hp => absurd hp List.not_mem_nil

end Written

/-- Parts that are read from a text make up an operator if there is a hole. -/
theorem isOperator_iff_hole_mem {ps : List Part} (hc : ps.IsChain Separated) (hne : ps ≠ [hole]) :
    isOperator ps = true ↔ hole ∈ ps := by
  match ps with
  | [] => simp [isOperator]
  | [p] => simpa [isOperator, eq_comm] using hne
  | p :: q :: ps =>
    have hpq : p = hole ∨ q = hole := by
      have hsep := (List.isChain_cons_cons.mp hc).1
      rwa [Separated, isHole_iff, isHole_iff] at hsep
    rcases hpq with rfl | rfl <;> simp [isOperator]

end Part

/-! ## Raw identifiers -/

namespace Name

/-- The name has the shape that the text shows. -/
structure ShapedLike (raw : Text) (x : Name) : Prop where
  /-- It takes an argument for every underscore. -/
  holeCount_eq : x.holeCount = raw.count underscore
  /-- Only the empty text has no fixity. -/
  fixity?_eq_none_iff : x.fixity? = none ↔ raw = []
  /-- It is a prefix operator if the text ends with an underscore but does not start with one. -/
  fixity?_eq_prefixOp_iff : x.fixity? = some .prefixOp ↔
    raw.getLast? = some underscore ∧ raw.head? ≠ some underscore
  /-- It is a postfix operator if the text starts with an underscore but does not end with one. -/
  fixity?_eq_postfixOp_iff : x.fixity? = some .postfixOp ↔
    raw.head? = some underscore ∧ raw.getLast? ≠ some underscore
  /-- It is an infix operator if the text does both. -/
  fixity?_eq_infixOp_iff : x.fixity? = some .infixOp ↔
    raw.head? = some underscore ∧ raw.getLast? = some underscore
  /-- It is nonfix if there is a text that does neither. -/
  fixity?_eq_nonfix_iff : x.fixity? = some .nonfix ↔
    raw ≠ [] ∧ raw.head? ≠ some underscore ∧ raw.getLast? ≠ some underscore
  /-- It is an operator if there is an underscore anywhere. -/
  isOperator_iff : x.isOperator = true ↔ underscore ∈ raw
  /-- It has an open end if there is an underscore at an end of the text. -/
  isOpen_iff : x.isOpen = true ↔ raw.head? = some underscore ∨ raw.getLast? = some underscore
  /-- Only the empty text stands for the wildcard. -/
  isNameless_iff : x.isNameless = true ↔ raw = []
  /-- It is found by the pieces between the underscores that are not empty. -/
  fragments_eq : x.fragments = (raw.splitOn underscore).filter fun piece => piece ≠ []

/-- Whatever the text shows can be read off it, because what is written of its parts is the text. -/
theorem shapedLike_ofRaw (range : SourceRange) {raw : Text} (hraw : raw ≠ [underscore]) :
    ShapedLike raw (ofRaw range raw) := by
  have hwild : Part.ofRaw raw ≠ [.token [underscore]] := fun h =>
    hraw (Part.ofRaw_injective (h.trans Part.ofRaw_underscore.symm))
  obtain ⟨htexts, hchain, hhole⟩ := (Part.isReadable_ofRaw raw).resolve_left hwild
  have hfirst := Part.head?_renderAll_iff htexts
  have hlast := Part.getLast?_renderAll_iff htexts
  have hnil := Part.renderAll_eq_nil_iff htexts
  have hmem := Part.hole_mem_iff htexts
  have hcount := Part.count_renderAll htexts
  rw [Part.renderAll_ofRaw] at hfirst hlast hnil hmem hcount
  have hoperator : (ofRaw range raw).isOperator = true ↔ underscore ∈ raw :=
    (Part.isOperator_iff_hole_mem hchain hhole).trans hmem
  have hfixity : ∀ f : Fixity, (ofRaw range raw).fixity? = some f ↔
      raw ≠ [] ∧ (raw.head? = some underscore ↔ f.opensFirst = true) ∧
        (raw.getLast? = some underscore ↔ f.opensLast = true) := by
    intro f
    rw [hfirst, hlast, Ne, hnil]
    exact Fixity.of?_eq_some_iff
  constructor
  case holeCount_eq => exact hcount.symm
  case fixity?_eq_none_iff => exact Fixity.of?_eq_none_iff.trans hnil.symm
  case fixity?_eq_prefixOp_iff =>
    cases raw <;> simp [hfixity, Fixity.opensFirst, Fixity.opensLast, and_comm]
  case fixity?_eq_postfixOp_iff =>
    cases raw <;> simp [hfixity, Fixity.opensFirst, Fixity.opensLast]
  case fixity?_eq_infixOp_iff =>
    cases raw <;> simp [hfixity, Fixity.opensFirst, Fixity.opensLast]
  case fixity?_eq_nonfix_iff => simp [hfixity, Fixity.opensFirst, Fixity.opensLast]
  case isOperator_iff => exact hoperator
  case isOpen_iff =>
    have hopen : (ofRaw range raw).isOpen = true ↔ underscore ∈ raw ∧
        (raw.head? = some underscore ∨ raw.getLast? = some underscore) := by
      rw [← hoperator, hfirst, hlast]
      exact Part.isOpen_iff_ends
    rw [hopen]
    -- an underscore at an end is an underscore
    refine and_iff_right_of_imp fun hends => hends.elim List.mem_of_mem_head? List.mem_of_getLast?
  case isNameless_iff => simp [isNameless_ofRaw, hraw]
  case fragments_eq =>
    show Part.texts (Part.ofRaw raw) = _
    rw [Part.ofRaw, if_neg hraw, Part.texts_ofSpans]

/-- The shape of the name of a raw identifier can be read off its text, but for the wildcard, which
is a token by itself. Parts that are not empty have exactly one fixity, and they are open if they
are an operator of another fixity than nonfix. -/
theorem shape_ofRaw :
    (∀ range raw, raw ≠ [underscore] → ShapedLike raw (ofRaw range raw)) ∧
      (∀ range, let x := ofRaw range [underscore]
        x.fixity? = some .nonfix ∧ x.isOperator = false ∧ x.isNameless = true ∧
          x.holeCount = 0) ∧
      ∀ ps : List Part,
        (Fixity.all.countP (fun f => Fixity.of? ps == some f) = if ps = [] then 0 else 1) ∧
          (Part.isOpen ps = true ↔
            Part.isOperator ps = true ∧ Fixity.of? ps ≠ some .nonfix) := by
  refine ⟨fun range raw => shapedLike_ofRaw range, fun range => ?_, fun ps => ⟨?_, ?_⟩⟩
  · exact ⟨rfl, rfl, rfl, rfl⟩
  · exact Fixity.countP_all ps
  · exact Part.isOpen_iff

/-- Nothing stands between two underscores, but both are holes. -/
example : let x := ofRaw .unknown "__".toList
    x.fixity? = some .infixOp ∧ x.holeCount = 2 ∧ x.isOpen = true ∧ x.fragments = [] := by decide

end Name

end MixfixNames
