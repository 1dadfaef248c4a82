/-
# The Parts of a Mixfix Name

A mixfix name such as `if_then_else_` is a sequence of literal tokens and holes for arguments. A
raw identifier is cut at every `_`, each of which is a hole; empty spans between holes are no
tokens. The wildcard `_` by itself is kept as a token. The main statement, `renderAll_ofRaw`, says
that the parts of a raw identifier spell it again.
-/
import MixfixNames.Grouping
import MixfixNames.Text.Quoted

namespace MixfixNames

/-- The character that marks a hole in a raw identifier; by itself it is the wildcard. -/
def underscore : Char := '_'

/-- One part of a mixfix name. -/
inductive Part where
  /-- A hole that takes an argument. -/
  | hole
  /-- A literal token. -/
  | token (text : Text)
  deriving DecidableEq, Repr

namespace Part

/-- The text of a token. -/
def text? : Part → Option Text
  | hole => none
  | token t => some t

/-- Whether the part is a hole. -/
def isHole : Part → Bool
  | hole => true
  | token _ => false

/-- A hole comes before every token, tokens are ordered by text. -/
instance : Ord Part where
  compare
    | hole, hole => .eq
    | hole, token _ => .lt
    | token _, hole => .gt
    | token s, token t => compare s t

/-- A part feeds which of the two it is, and a token its text. -/
instance : Feeds Part where
  feed
    | hole => [.number 0]
    | token t => [.number 1, .token t]

/-- The part as it is written. -/
def render : Part → Text
  | hole => [underscore]
  | token t => t

/-- The part as it is inspected, with the text of a token in quotes. -/
def inspect : Part → Text
  | hole => "Hole".toList
  | token t => "Id(".toList ++ Text.quote t ++ [')']

/-- The parts written one after the other. -/
def renderAll (parts : List Part) : Text := parts.flatMap render

/-- The texts of the tokens in a sequence of parts, in order. -/
def texts (parts : List Part) : List Text := parts.filterMap text?

/-- The number of holes in a sequence of parts. -/
def holeCount (parts : List Part) : Nat := parts.countP isHole

/-! ## Raw identifiers -/

/-- The parts of a span without holes: its token, or none if it is empty. -/
def ofSpan (span : Text) : List Part := if span = [] then [] else [token span]

/-- The parts of a text that is cut at every underscore. -/
def ofSpans : List Text → List Part
  | [] => []
  | first :: rest => ofSpan first ++ rest.flatMap fun span => hole :: ofSpan span

/-- The parts of a raw identifier. -/
def ofRaw (raw : Text) : List Part :=
  if raw = [underscore] then [token raw] else ofSpans (raw.splitOn underscore)

/-- The empty identifier has no parts. -/
theorem ofRaw_nil : ofRaw [] = [] := rfl

/-- The wildcard is a token. -/
theorem ofRaw_underscore : ofRaw [underscore] = [token [underscore]] := rfl

/-- Parts put one after the other are written one after the other. -/
theorem renderAll_append (ps qs : List Part) :
    renderAll (ps ++ qs) = renderAll ps ++ renderAll qs := by
  simp [renderAll]

/-- The parts of a span are written as the span. -/
theorem renderAll_ofSpan (span : Text) : renderAll (ofSpan span) = span := by
  by_cases h : span = [] <;> simp [ofSpan, renderAll, render, h]

/-- The parts of spans are written as the spans with an underscore between each two. -/
theorem renderAll_ofSpans (spans : List Text) :
    renderAll (ofSpans spans) = [underscore].intercalate spans := by
  cases spans with
  | nil => rfl
  | cons first rest =>
    rw [ofSpans, renderAll_append, renderAll_ofSpan]
    induction rest generalizing first with
    | nil => simp [renderAll]
    | cons span rest ih =>
      have h : renderAll (hole :: ofSpan span) = underscore :: span := by
        rw [← List.singleton_append, renderAll_append, renderAll_ofSpan]
        rfl
      rw [List.flatMap_cons, renderAll_append, h, List.intercalate_cons_cons, ← ih span]
      simp

/-- The parts of a raw identifier spell it. -/
theorem renderAll_ofRaw (raw : Text) : renderAll (ofRaw raw) = raw := by
  unfold ofRaw
  split
  · simp [renderAll, render]
  · rw [renderAll_ofSpans, List.intercalate_splitOn]

/-- Different raw identifiers have different parts. -/
theorem ofRaw_injective {s t : Text} (h : ofRaw s = ofRaw t) : s = t := by
  rw [← renderAll_ofRaw s, h, renderAll_ofRaw]

end Part

end MixfixNames
