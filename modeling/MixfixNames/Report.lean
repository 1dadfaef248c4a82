/-
# Reports

A report is what a reader gets to see of an error: a general description of the kind of error, a
message about this one, and the places that matter, each with or without a note. A kind of error
need not say everything: its message is its description unless it gives one, and its places are
the one place that it gives. An error that gives no place at all has no report.
-/
import MixfixNames.SourceRange

namespace MixfixNames

/-- A place that matters for an error, and what there is to say about it. -/
structure Place where
  /-- Where to look. -/
  range : SourceRange
  /-- What this place has to do with the error. -/
  note : Option Text
  deriving Repr

/-- What is shown of an error. -/
structure Report where
  /-- What kind of error it is. -/
  description : Text
  /-- What this error is about. -/
  message : Text
  /-- The places that matter. -/
  places : List Place
  deriving Repr

namespace Place

/-- A place without a note. -/
def bare (range : SourceRange) : Place := ⟨range, none⟩

/-- A place on a line of its own. -/
def render (p : Place) : Text :=
  let shown := '@' :: p.range.render
  match p.note with
  | none => shown ++ ['\n']
  | some note => shown ++ ": ".toList ++ note ++ ['\n']

end Place

namespace Report

/-- The lines on the places that matter; without any there is one line that says so. -/
def renderPlaces : List Place → Text
  | [] => "No locations specified\n".toList
  | places => places.flatMap Place.render

/-- The report on several lines, each of which is ended. -/
def render (r : Report) : Text :=
  "Project error: ".toList ++ r.description ++ ['\n'] ++ r.message ++ ['\n'] ++
    renderPlaces r.places

end Report

/-! ## Kinds of errors -/

/-- Errors that can be reported. A kind of error gives its places, or one place. -/
class Reportable (ε : Type) where
  /-- What kind of error it is. -/
  description : ε → Text
  /-- What this error is about. -/
  message : ε → Text := description
  /-- The one place that matters. -/
  place? : ε → Option SourceRange := fun _ => none
  /-- The places that matter. -/
  places? : ε → Option (List Place) := fun e => (place? e).map fun r => [Place.bare r]

namespace Reportable

/-- What is said of an error that gives no place at all. -/
def unplaced : Text :=
  ("not implemented: Error type did not implement either positions or one_position").toList

/-- The report of an error; none if it gives no place. -/
def report? {ε : Type} [Reportable ε] (e : ε) : Option Report :=
  (places? e).map fun places => ⟨description e, message e, places⟩

end Reportable

/-- A report reports itself. -/
instance : Reportable Report where
  description r := r.description
  message r := r.message
  places? r := some r.places

/-- A report is its own report. -/
theorem Reportable.report?_report (r : Report) : Reportable.report? r = some r := rfl

end MixfixNames
