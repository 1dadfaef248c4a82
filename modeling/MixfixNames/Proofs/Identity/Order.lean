/-
# The Orders of Names, Module Names and Ranges

Comparisons are written as programs: by cases, one key after the other, part by part. This file says
which orders they are. Every type has a relation `Precedes`, which does not mention comparisons, and
the main statements, all of them called `compare_eq_lt_iff`, say that a value is compared as less
than another exactly if it precedes it.
-/
import MixfixNames.ModuleName.Basic
import MixfixNames.Proofs.QualifiedName.Segments

namespace MixfixNames

/-! ## Lists and texts -/

/-- Lists are ordered like the words of a dictionary. -/
theorem compare_list_eq_lt_iff {α : Type} [Ord α] [Std.LawfulEqOrd α] {r : α → α → Prop}
    (h : ∀ a b : α, compare a b = .lt ↔ r a b) (xs ys : List α) :
    compare xs ys = .lt ↔ List.Lex r xs ys := by
  induction xs generalizing ys with
  | nil =>
    cases ys with
    | nil => exact iff_of_false Ordering.noConfusion List.not_lex_nil
    | cons y ys => exact iff_of_true rfl .nil
  | cons x xs ih =>
    cases ys with
    | nil => exact iff_of_false Ordering.noConfusion List.not_lex_nil
    | cons y ys =>
      rw [List.compare_cons_cons, Ordering.then_eq_lt, h, Std.LawfulEqOrd.compare_eq_iff_eq, ih,
        List.cons_lex_cons_iff]

/-- Texts are compared as their characters are, one after the other. -/
theorem Text.compare_eq_lt_iff (s t : Text) : compare s t = .lt ↔ s < t :=
  compare_list_eq_lt_iff (fun _ _ => compareOfLessAndEq_eq_lt) s t

/-- A comparison that comes to another one is transitive if that one is. -/
theorem transOrd_of_compare_eq {α : Type} [Ord α] {f : α → α → Ordering} [Std.TransCmp f]
    (h : ∀ a b : α, compare a b = f a b) : Std.TransOrd α := by
  have hf : (compare : α → α → Ordering) = f := funext fun a => funext (h a)
  rw [Std.TransOrd, hf]
  infer_instance

/-! ## Parts -/

namespace Part

/-- A hole precedes every token, and tokens precede each other as their texts do. -/
inductive Precedes : Part → Part → Prop
  /-- A hole precedes a token. -/
  | hole (t : Text) : Precedes .hole (.token t)
  /-- A token precedes those of greater texts. -/
  | token {s t : Text} (h : s < t) : Precedes (.token s) (.token t)

instance : Std.TransOrd Part :=
  transOrd_of_compare_eq (f := compareOn text?) fun a b => by cases a <;> cases b <;> rfl

instance : Std.LawfulEqOrd Part where
  eq_of_compare {a b} h := by
    cases a <;> cases b
    case hole.hole => rfl
    case hole.token => cases h
    case token.hole => cases h
    case token.token s t => rw [Std.LawfulEqOrd.eq_of_compare (a := s) (b := t) h]

/-- The order of parts is that of `Part.Precedes`. -/
theorem compare_eq_lt_iff (a b : Part) : compare a b = .lt ↔ Precedes a b := by
  constructor
  · intro h
    cases a <;> cases b
    case hole.hole => cases h
    case hole.token t => exact .hole t
    case token.hole => cases h
    case token.token s t => exact .token ((Text.compare_eq_lt_iff s t).mp h)
  · rintro (t | h)
    · rfl
    · exact (Text.compare_eq_lt_iff _ _).mpr h

end Part

/-! ## Names -/

namespace Identity

/-- Wildcards precede identifiers and are numbered; identifiers precede each other part by part. -/
inductive Precedes : Identity → Identity → Prop
  /-- A wildcard precedes those of greater numbers. -/
  | anonymous {i j : AnonymousId} (h : i.number < j.number) : Precedes (.anonymous i) (.anonymous j)
  /-- A wildcard precedes an identifier. -/
  | anonymousIdentifier (i : AnonymousId) (ps : List Part) :
    Precedes (.anonymous i) (.identifier ps)
  /-- An identifier precedes those that go on from it, and those that have the later part where
  their parts first differ. -/
  | identifier {ps qs : List Part} (h : List.Lex Part.Precedes ps qs) :
    Precedes (.identifier ps) (.identifier qs)

/-- The parts of an identifier. -/
def parts? : Identity → Option (List Part)
  | anonymous _ => none
  | identifier ps => some ps

/-- The number of a wildcard. -/
def number? : Identity → Option Nat
  | anonymous i => some i.number
  | identifier _ => none

instance : Std.TransOrd Identity := by
  apply transOrd_of_compare_eq (f := compareLex (compareOn parts?) (compareOn number?))
  intro a b
  cases a <;> cases b
  case identifier.identifier ps qs => exact Ordering.then_eq.symm
  all_goals rfl

instance : Std.LawfulEqOrd Identity where
  eq_of_compare {a b} h := by
    cases a <;> cases b
    case anonymous.anonymous i j =>
      exact congrArg (fun n => anonymous ⟨n⟩) (Nat.compare_eq_eq.mp h)
    case anonymous.identifier => cases h
    case identifier.anonymous => cases h
    case identifier.identifier ps qs =>
      rw [Std.LawfulEqOrd.eq_of_compare (a := ps) (b := qs) h]

/-- The order of identities is that of `Identity.Precedes`. -/
theorem compare_eq_lt_iff (a b : Identity) : compare a b = .lt ↔ Precedes a b := by
  constructor
  · intro h
    cases a <;> cases b
    case anonymous.anonymous i j => exact .anonymous (Nat.compare_eq_lt.mp h)
    case anonymous.identifier i ps => exact .anonymousIdentifier i ps
    case identifier.anonymous => cases h
    case identifier.identifier ps qs =>
      exact .identifier ((compare_list_eq_lt_iff Part.compare_eq_lt_iff ps qs).mp h)
  · rintro (h | _ | h)
    · exact Nat.compare_eq_lt.mpr h
    · rfl
    · exact (compare_list_eq_lt_iff Part.compare_eq_lt_iff _ _).mpr h

end Identity

instance : Std.TransOrd Name := inferInstanceAs (Std.TransCmp (compareOn Name.identity))

/-- Names precede each other as what they are does, wherever they are written. -/
def Name.Precedes (x y : Name) : Prop := x.identity.Precedes y.identity

/-- The order of names is that of what they are. -/
theorem Name.compare_eq_lt_iff (x y : Name) : compare x y = .lt ↔ x.Precedes y :=
  Identity.compare_eq_lt_iff x.identity y.identity

/-- Names are not told apart by the order exactly if they are the same name. -/
theorem Name.compare_eq_eq_iff (x y : Name) : compare x y = .eq ↔ x.identity = y.identity :=
  Std.LawfulEqOrd.compare_eq_iff_eq (a := x.identity) (b := y.identity)

/-! ## Qualified names -/

instance : Std.TransOrd QualifiedName.Level :=
  inferInstanceAs (Std.TransCmp
    (compareLex (compareOn QualifiedName.Level.isLast) (compareOn QualifiedName.Level.identity)))

instance : Std.LawfulEqOrd QualifiedName.Level where
  eq_of_compare {a b} h := by
    obtain ⟨hlast, hidentity⟩ := Ordering.then_eq_eq.mp h
    cases a
    cases b
    exact congrArg₂ QualifiedName.Level.mk (Std.LawfulEqOrd.eq_of_compare hlast)
      (Std.LawfulEqOrd.eq_of_compare hidentity)

instance : Std.TransOrd QualifiedName :=
  inferInstanceAs (Std.TransCmp (compareOn QualifiedName.levels))

/-- Paths precede each other at the first level where they differ: there a path that goes on
precedes one that ends, and otherwise the segments decide. -/
inductive NamePath.Precedes : NamePath → NamePath → Prop
  /-- A path that goes on precedes one that ends. -/
  | goesOn (x : Name) (rest : NamePath) (y : Name) : Precedes (.qualified x rest) (.simple y)
  /-- Both paths end, and their last segments decide. -/
  | last {x y : Name} (h : x.Precedes y) : Precedes (.simple x) (.simple y)
  /-- Both paths go on, and their qualifiers decide. -/
  | qualifier {x y : Name} (h : x.Precedes y) (p q : NamePath) :
    Precedes (.qualified x p) (.qualified y q)
  /-- Both paths go on behind the same qualifier. -/
  | behind {x y : Name} {p q : NamePath} (hxy : (x == y) = true) (h : Precedes p q) :
    Precedes (.qualified x p) (.qualified y q)

/-- The order of levels is that of paths. -/
theorem NamePath.compare_levels_eq_lt_iff (p q : NamePath) :
    compare p.toQualifiedName.levels q.toQualifiedName.levels = .lt ↔ p.Precedes q := by
  induction p generalizing q with
  | simple x =>
    cases q with
    | simple y =>
      have hlevels : compare (simple x).toQualifiedName.levels (simple y).toQualifiedName.levels =
          compare x y := List.compare_cons_cons.trans Ordering.then_eq
      rw [hlevels, Name.compare_eq_lt_iff]
      exact ⟨.last, fun | .last h => h⟩
    | qualified y q => exact iff_of_false Ordering.noConfusion nofun
  | qualified x p ih =>
    cases q with
    | simple y => exact iff_of_true rfl (.goesOn x p y)
    | qualified y q =>
      have hlevels : compare (qualified x p).toQualifiedName.levels
            (qualified y q).toQualifiedName.levels =
          (compare x y).then (compare p.toQualifiedName.levels q.toQualifiedName.levels) :=
        List.compare_cons_cons
      rw [hlevels, Ordering.then_eq_lt, Name.compare_eq_lt_iff, Name.compare_eq_eq_iff,
        ← Name.beq_iff, ih]
      constructor
      · rintro (h | ⟨hxy, h⟩)
        · exact .qualifier h p q
        · exact .behind hxy h
      · rintro (_ | _ | h | ⟨hxy, h⟩)
        · exact .inl h
        · exact .inr ⟨hxy, h⟩

/-- Qualified names precede each other as the paths of their segments do. -/
def QualifiedName.Precedes (q r : QualifiedName) : Prop := q.path.Precedes r.path

/-- The order of qualified names is that of their paths. -/
theorem QualifiedName.compare_eq_lt_iff (q r : QualifiedName) :
    compare q r = .lt ↔ q.Precedes r := by
  rw [Precedes, ← NamePath.compare_levels_eq_lt_iff, NamePath.toQualifiedName_path,
    NamePath.toQualifiedName_path]
  rfl

/-- What goes on comes first, whatever the names are. -/
example : compare (QualifiedName.parse .unknown "b.a".toList)
    (QualifiedName.parse .unknown "a".toList) = .lt := by decide

/-- Qualified names are not told apart by the order exactly if they have the same levels. -/
theorem QualifiedName.compare_eq_eq_iff (q r : QualifiedName) :
    compare q r = .eq ↔ q.levels = r.levels :=
  Std.LawfulEqOrd.compare_eq_iff_eq (a := q.levels) (b := r.levels)

/-! ## Module names -/

instance : Std.TransOrd ModuleName := inferInstanceAs (Std.TransCmp (compareOn ModuleName.parts))

/-- Module names precede each other part by part, and the parts do as texts. -/
def ModuleName.Precedes (m n : ModuleName) : Prop := List.Lex (· < ·) m.parts n.parts

/-- The order of module names is that of their parts. -/
theorem ModuleName.compare_eq_lt_iff (m n : ModuleName) : compare m n = .lt ↔ m.Precedes n :=
  compare_list_eq_lt_iff Text.compare_eq_lt_iff m.parts n.parts

/-- Module names are not told apart by the order exactly if they have the same parts. -/
theorem ModuleName.compare_eq_eq_iff (m n : ModuleName) : compare m n = .eq ↔ m.parts = n.parts :=
  Std.LawfulEqOrd.compare_eq_iff_eq (a := m.parts) (b := n.parts)

/-! ## Paths -/

namespace Component

/-- Components of different kinds precede each other by kind, entries of directories by their
octets. -/
inductive Precedes : Component → Component → Prop
  /-- The root precedes the start of a relative path, this the directory above, and this an
  entry. -/
  | kind {a b : Component} (h : a.rank < b.rank) : Precedes a b
  /-- An entry precedes those of greater names. -/
  | entry {s t : List UInt8} (h : s < t) : Precedes (.normal s) (.normal t)

instance : Std.TransOrd Component :=
  inferInstanceAs (Std.TransCmp (compareLex (compareOn rank) (compareOn entry)))

instance : Std.LawfulEqOrd Component where
  eq_of_compare {a b} h := by
    obtain ⟨hrank, hentry⟩ := Ordering.then_eq_eq.mp h
    have hentry : a.entry = b.entry := Std.LawfulEqOrd.eq_of_compare hentry
    have hrank : a.rank = b.rank := Std.LawfulEqOrd.eq_of_compare hrank
    cases a <;> cases b <;> simp_all [rank, entry]

/-- The order of components is that of `Component.Precedes`. -/
theorem compare_eq_lt_iff (a b : Component) : compare a b = .lt ↔ Precedes a b := by
  have hthen : compare a b = .lt ↔ a.rank < b.rank ∨ a.rank = b.rank ∧ a.entry < b.entry := by
    have hentry := compare_list_eq_lt_iff (fun _ _ => Std.compare_eq_lt) a.entry b.entry
    exact Ordering.then_eq_lt.trans
      (or_congr Nat.compare_eq_lt (and_congr Nat.compare_eq_eq hentry))
  rw [hthen]
  constructor
  · rintro (h | ⟨hrank, h⟩)
    · exact .kind h
    · cases a <;> cases b <;> simp_all [rank, entry, Precedes.entry]
  · rintro (h | h)
    · exact .inl h
    · exact .inr ⟨rfl, h⟩

end Component

/-- Paths are the same place if they have the same components, and precede each other component by
component. -/
def Path.Precedes (p q : Path) : Prop := List.Lex Component.Precedes p.components q.components

/-- The order of paths is that of their components. -/
theorem Path.compare_eq_lt_iff (p q : Path) : compare p q = .lt ↔ p.Precedes q :=
  compare_list_eq_lt_iff Component.compare_eq_lt_iff p.components q.components

/-- Paths are not told apart by the order exactly if they are the same place. -/
theorem Path.compare_eq_eq_iff (p q : Path) :
    compare p q = .eq ↔ p.components = q.components :=
  Std.LawfulEqOrd.compare_eq_iff_eq (a := p.components) (b := q.components)

/-! ## Ranges -/

namespace SourceRange

/-- The unknown range precedes every known one; known ranges precede each other by file, then by
start, then by end. -/
inductive Precedes : SourceRange → SourceRange → Prop
  /-- The unknown range precedes a known one. -/
  | unknown (file : Path) (start stop : ℕ) : Precedes .unknown (.known file start stop)
  /-- The files decide. -/
  | file {f g : Path} (h : f.Precedes g) (s e s' e' : ℕ) :
    Precedes (.known f s e) (.known g s' e')
  /-- In one file the starts decide. -/
  | start {f g : Path} (hfg : (f == g) = true) {s s' : ℕ} (h : s < s') (e e' : ℕ) :
    Precedes (.known f s e) (.known g s' e')
  /-- Behind one start the ends decide. -/
  | stop {f g : Path} (hfg : (f == g) = true) (s : ℕ) {e e' : ℕ} (h : e < e') :
    Precedes (.known f s e) (.known g s e')

/-- What ranges are told apart by: nothing, or the components of the file and the two ends. -/
def place? : SourceRange → Option (List Component × ℕ × ℕ)
  | unknown => none
  | known file start stop => some (file.components, start, stop)

/-- Ranges are equal exactly if they are at the same place. -/
theorem beq_iff (r r' : SourceRange) : (r == r') = true ↔ r.place? = r'.place? := by
  cases r <;> cases r'
  case known.known f s e f' s' e' =>
    have hbeq : (known f s e == known f' s' e') = (f == f' && s == s' && e == e') := rfl
    simp [hbeq, place?, Path.beq_iff, and_assoc]
  case unknown.unknown => exact iff_of_true rfl rfl
  all_goals exact iff_of_false nofun nofun

/-- Files are told apart as places, not as texts. -/
example : known (Path.ofText "a//b/.".toList) 0 1 == known (Path.ofText "a/b".toList) 0 1 := by
  decide

theorem compare_known (f f' : Path) (s e s' e' : ℕ) :
    compare (known f s e) (known f' s' e') =
      (compare f f').then ((compare s s').then (compare e e')) := rfl

/-- Ranges are not told apart by the order exactly if they are at the same place. -/
theorem compare_eq_eq_iff (r r' : SourceRange) : compare r r' = .eq ↔ r.place? = r'.place? := by
  cases r <;> cases r'
  case known.known f s e f' s' e' =>
    rw [compare_known, Ordering.then_eq_eq, Ordering.then_eq_eq, Path.compare_eq_eq_iff,
      Nat.compare_eq_eq, Nat.compare_eq_eq]
    simp [place?]
  case unknown.unknown => exact iff_of_true rfl rfl
  all_goals exact iff_of_false nofun nofun

instance : Std.TransOrd SourceRange := by
  apply transOrd_of_compare_eq
    (f := compareLex (compareOn fun r => r.file?.map Path.components)
      (compareLex (compareOn fun r => r.span?.map Prod.fst)
        (compareOn fun r => r.span?.map Prod.snd)))
  intro r r'
  cases r <;> cases r' <;> rfl

/-- The order of ranges is that of `SourceRange.Precedes`. -/
theorem compare_eq_lt_iff (r r' : SourceRange) : compare r r' = .lt ↔ r.Precedes r' := by
  cases r <;> cases r'
  case unknown.unknown => exact iff_of_false nofun nofun
  case unknown.known f s e => exact iff_of_true rfl (.unknown f s e)
  case known.unknown => exact iff_of_false nofun nofun
  case known.known f s e f' s' e' =>
    have hthen : compare (known f s e) (known f' s' e') = .lt ↔
        f.Precedes f' ∨ (f == f') = true ∧ (s < s' ∨ s = s' ∧ e < e') := by
      rw [compare_known, Ordering.then_eq_lt, Ordering.then_eq_lt, Path.compare_eq_lt_iff,
        Path.compare_eq_eq_iff, Nat.compare_eq_lt, Nat.compare_eq_eq, Nat.compare_eq_lt,
        Path.beq_iff]
    rw [hthen]
    constructor
    · rintro (h | ⟨hff, h | ⟨rfl, h⟩⟩)
      · exact .file h s e s' e'
      · exact .start hff h e e'
      · exact .stop hff s h
    · rintro (_ | h | ⟨hff, h⟩ | ⟨hff, _, h⟩)
      · exact .inl h
      · exact .inr ⟨hff, .inl h⟩
      · exact .inr ⟨hff, .inr ⟨rfl, h⟩⟩

end SourceRange

end MixfixNames
