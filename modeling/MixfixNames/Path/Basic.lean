/-
# Paths

A path is the sequence of octets that was given, which need not be text. What it denotes is the
list of its components. Two paths are the same place when their components agree, and the order
of paths is that of their components; the octets themselves are kept and never normalised.

A path is cut at every `/` into pieces. Behind the start of the path an empty piece and `.` denote
nothing, `..` is the directory above, and any other piece is an entry of a directory. At the start
an empty piece is the root, and `.` is the directory that the path starts from.

The extension of a file name is what stands behind its last full stop. A name without a full
stop has none, and neither has one whose only full stop comes first, such as a hidden file.
-/
import MixfixNames.Grouping
import MixfixNames.Sequence

namespace MixfixNames

/-! ## Components -/

/-- One step of a path. -/
inductive Component where
  /-- The root directory. -/
  | root
  /-- The directory that a relative path starts from, written `.`. -/
  | current
  /-- The directory above, written `..`. -/
  | parent
  /-- An entry of a directory. -/
  | normal (name : List UInt8)
  deriving DecidableEq, Repr

/-- The octet that separates the pieces of a path. -/
def slash : UInt8 := 47

/-- The octet of a full stop. -/
def dot : UInt8 := 46

namespace Component

/-- The place of a component's kind in the order of components. -/
def rank : Component → Nat
  | root => 0
  | current => 1
  | parent => 2
  | normal _ => 3

/-- The name of a directory entry; the other components have none. -/
def entry : Component → List UInt8
  | normal name => name
  | _ => []

/-- Components are ordered by kind, directory entries among themselves by their octets. -/
instance : Ord Component where
  compare a b := (compare a.rank b.rank).then (compare a.entry b.entry)

/-- What a piece denotes behind the start of a path. -/
def ofPiece? (piece : List UInt8) : Option Component :=
  if piece = [] ∨ piece = [dot] then none
  else if piece = [dot, dot] then some parent
  else some (normal piece)

/-- What the first piece of a path denotes. -/
def ofFirstPiece? (piece : List UInt8) : Option Component :=
  if piece = [] then some root
  else if piece = [dot] then some current
  else ofPiece? piece

/-- The name of a directory entry as text. -/
def text? : Component → Option Text
  | normal name => some (Utf8.lossy name)
  | _ => none

/-- Behind the start of a path no piece is the root. -/
theorem ofPiece?_ne_root (piece : List UInt8) : ofPiece? piece ≠ some root := by
  unfold ofPiece?
  split
  · simp
  · split <;> simp

/-- Nothing but an entry has a text. -/
theorem text?_eq_some_iff {c : Component} {t : Text} :
    c.text? = some t ↔ ∃ name, c = normal name ∧ Utf8.lossy name = t := by
  cases c <;> simp [text?]

end Component

/-! ## Paths -/

/-- A path as it was given. -/
structure Path where
  /-- The octets of the path. -/
  bytes : List UInt8
  deriving Repr

namespace Path

/-- The path that a text spells. -/
def ofText (s : Text) : Path := ⟨Utf8.encode s⟩

/-- The path as text, with a replacement character for each malformed part. -/
def render (p : Path) : Text := Utf8.lossy p.bytes

/-- The empty path. -/
def empty : Path := ⟨[]⟩

/-- Whether the path starts at the root. -/
def isAbsolute (p : Path) : Bool := p.bytes.head? == some slash

/-- A piece of a path between two separators, with the component that it denotes. -/
structure Piece where
  /-- The octets between the separators. -/
  bytes : List UInt8
  /-- What the piece denotes where it stands. -/
  component : Option Component
  deriving DecidableEq, Repr

/-- Whether a piece denotes nothing where it stands. -/
def Piece.isSilent (piece : Piece) : Bool := piece.component.isNone

/-- The pieces with what each denotes, given the octets between the separators. -/
def annotate : List (List UInt8) → List Piece
  | [] => []
  | first :: rest =>
    ⟨first, Component.ofFirstPiece? first⟩ :: rest.map fun b => ⟨b, Component.ofPiece? b⟩

/-- The pieces of a path in order; the empty path has none. -/
def pieces (p : Path) : List Piece :=
  if p.bytes = [] then [] else annotate (p.bytes.splitOn slash)

/-- The path that consists of the given pieces; the root alone is written `/`. -/
def ofPieces : List Piece → Path
  | [⟨[], some .root⟩] => ⟨[slash]⟩
  | ps => ⟨[slash].intercalate (ps.map Piece.bytes)⟩

/-- The components of a path in order. -/
def components (p : Path) : List Component := p.pieces.filterMap Piece.component

/-- Paths are the same place when their components agree. -/
instance : BEq Path := ⟨fun p q => p.components == q.components⟩

/-- Paths are ordered by their components, a shorter path before those that go on from it. -/
instance : Ord Path := ⟨fun p q => compare p.components q.components⟩

/-- The pieces of a path that are fed to a hasher. The root feeds nothing, and neither does a piece
that denotes nothing where it stands. -/
def fedPieces (p : Path) : List (List UInt8) :=
  match p.bytes.splitOn slash with
  | [] => []
  | first :: rest => [first].filter (· ≠ []) ++ rest.filter fun b => b ≠ [] ∧ b ≠ [dot]

/-- The lengths of pieces mixed into one word: each is added, and then the word is rotated by two
bits. The word keeps the pieces apart where a hasher does not. -/
def mixLengths (pieces : List (List UInt8)) : UInt64 :=
  pieces.foldl (fun bits b => ⟨(bits + UInt64.ofNat b.length).toBitVec.rotateRight 2⟩) 0

/-- A path feeds its pieces one after the other, and then their lengths. -/
instance : Feeds Path where
  feed p := p.fedPieces.map .octets ++ [.number (mixLengths p.fedPieces).toNat]

/-- Being the same place means having the same components. -/
theorem beq_iff {p q : Path} : (p == q) = true ↔ p.components = q.components := by
  show (p.components == q.components) = true ↔ p.components = q.components
  exact beq_iff_eq

/-- The empty path has no components. -/
theorem components_empty : empty.components = [] := rfl

end Path

/-! ## File names and extensions -/

/-- A file name without its extension, and the extension. -/
def splitExtension (name : List UInt8) : List UInt8 × Option (List UInt8) :=
  match Sequence.splitLast? dot name with
  | none => (name, none)
  | some ([], _) => (name, none)
  | some (stem, extension) => (stem, some extension)

/-- A name with an extension is its stem, which is not empty, a full stop and the extension, which
contains none. -/
theorem eq_append_of_splitExtension {name stem extension : List UInt8}
    (h : splitExtension name = (stem, some extension)) :
    name = stem ++ dot :: extension ∧ stem ≠ [] ∧ dot ∉ extension := by
  unfold splitExtension at h
  split at h
  · simp at h
  · simp at h
  · next s e hne hs =>
    simp only [Prod.mk.injEq, Option.some.injEq] at h
    obtain ⟨rfl, rfl⟩ := h
    obtain ⟨h1, h2⟩ := Sequence.eq_append_of_splitLast? hs
    refine ⟨h1, ?_, h2⟩
    rintro rfl
    exact hne rfl

/-- A stem that is not empty is split off again. -/
theorem splitExtension_append {stem extension : List UInt8} (hs : stem ≠ [])
    (he : dot ∉ extension) :
    splitExtension (stem ++ dot :: extension) = (stem, some extension) := by
  unfold splitExtension
  rw [Sequence.splitLast?_append_cons he]
  cases stem with
  | nil => exact absurd rfl hs
  | cons b stem => rfl

namespace Path

/-- The last component of a list if it is a directory entry. -/
def entryAtEnd? (cs : List Component) : Option (List UInt8) :=
  match cs.getLast? with
  | some (.normal name) => some name
  | _ => none

/-- A list ends in an entry if that entry stands behind the others. -/
theorem entryAtEnd?_eq_some_iff {cs : List Component} {name : List UInt8} :
    entryAtEnd? cs = some name ↔ ∃ init, cs = init ++ [.normal name] := by
  rw [← List.getLast?_eq_some_iff, entryAtEnd?]
  constructor
  · intro h
    split at h
    · next hlast =>
      cases h
      exact hlast
    · cases h
  · intro h
    rw [h]

/-- The name of the file that the path leads to. -/
def fileName? (p : Path) : Option (List UInt8) := entryAtEnd? p.components

/-- The extension of the file that the path leads to. -/
def extension? (p : Path) : Option (List UInt8) :=
  p.fileName?.bind fun name => (splitExtension name).2

end Path

end MixfixNames
