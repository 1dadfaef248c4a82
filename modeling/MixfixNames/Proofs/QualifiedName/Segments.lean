/-
# Qualified Names as Lists of Segments

A path is built by a fold from its inner end, extended by recursion and read by walks, and a
qualified name is a list of qualifiers with a last segment. Both are nothing but the list of their
segments, which is never empty: everything that is done to them is done to that list. The main
statement, `segmentLaws_and_agreement`, collects these laws, among them one about scripts, in which
walks along one path are continued and copied in any order: what a walk answers depends only on how
often it was asked.
-/
import Mathlib.Logic.Function.Iterate
import MixfixNames.NamePath
import MixfixNames.Proofs.Ranges.Alike

namespace MixfixNames

namespace NamePath

/-! ## Paths and their segments -/

/-- A path has a segment. -/
theorem segments_ne_nil (p : NamePath) : p.segments ≠ [] := by
  cases p <;> simp

/-- Qualifiers around a path stand in front of its segments. -/
theorem segments_foldr_qualified (xs : List Name) (p : NamePath) :
    (xs.foldr qualified p).segments = xs ++ p.segments := by
  induction xs with
  | nil => rfl
  | cons x xs ih => rw [List.foldr_cons, segments_qualified, ih, List.cons_append]

/-- Paths with the same segments are the same path. -/
theorem segments_injective : Function.Injective segments := by
  intro p r h
  induction p generalizing r with
  | simple x =>
    cases r with
    | simple y => simpa using h
    | qualified y rest => simp [(segments_ne_nil rest).symm] at h
  | qualified x tail ih =>
    cases r with
    | simple y => simp [segments_ne_nil tail] at h
    | qualified y rest =>
      rw [segments_qualified, segments_qualified, List.cons.injEq] at h
      rw [h.1, ih h.2]

/-- Names make up the path whose segments they are, unless there is none. -/
theorem map_segments_ofSegments? (xs : List Name) :
    (ofSegments? xs).map segments = if xs = [] then none else some xs := by
  rcases List.eq_nil_or_concat xs with rfl | ⟨init, x, rfl⟩
  · rfl
  · rw [if_neg (by simp), ofSegments?, List.concat_eq_append, List.getLast?_concat,
      List.dropLast_concat, Option.map_some, Option.map_some, segments_foldr_qualified,
      segments_simple]

theorem ofSegments?_eq_none_iff {xs : List Name} : ofSegments? xs = none ↔ xs = [] := by
  rw [ofSegments?, Option.map_eq_none_iff, List.getLast?_eq_none_iff]

/-- A path is made up by its segments. -/
theorem ofSegments?_segments (p : NamePath) : ofSegments? p.segments = some p := by
  have h := map_segments_ofSegments? p.segments
  rw [if_neg (segments_ne_nil p)] at h
  obtain ⟨r, hr, hrp⟩ := Option.map_eq_some_iff.mp h
  rw [hr, segments_injective hrp]

/-- Qualifying puts a segment behind the others. -/
theorem segments_qualify (p : NamePath) (x : Name) :
    (p.qualify x).segments = p.segments ++ [x] := by
  induction p with
  | simple y => simp [qualify]
  | qualified y rest ih => simp [qualify, ih]

theorem head?_segments (p : NamePath) : p.segments.head? = some p.first := by
  cases p <;> simp [first]

/-- The innermost segment is the last one. -/
theorem getLast?_segments (p : NamePath) : p.segments.getLast? = some p.last := by
  induction p with
  | simple x => simp [last]
  | qualified x rest ih => simp [last, List.getLast?_cons, ih]

/-- The segment that a path is qualified by is its innermost one. -/
theorem last_qualify (p : NamePath) (x : Name) : (p.qualify x).last = x := by
  have h := getLast?_segments (p.qualify x)
  rw [segments_qualify, List.getLast?_concat] at h
  exact (Option.some.inj h).symm

/-- A path has a qualifier exactly if it has more than one segment. -/
theorem isQualified_iff (p : NamePath) : p.isQualified = true ↔ 1 < p.segments.length := by
  cases p with
  | simple x => simp [isQualified]
  | qualified x rest =>
    have h := List.length_pos_iff.mpr (segments_ne_nil rest)
    simp [isQualified, h]

/-- A path has a sole segment exactly if it has no other one. -/
theorem sole?_eq_some_iff (p : NamePath) (x : Name) : p.sole? = some x ↔ p.segments = [x] := by
  cases p with
  | simple y => simp [sole?]
  | qualified y rest => simp [sole?, segments_ne_nil rest]

/-! ## Ranges of paths -/

/-- The range of a path covers its segments. -/
theorem range_eq_cover (p : NamePath) :
    p.range = SourceRange.cover (p.segments.map Name.range) := by
  rw [range, SourceRange.cover, List.foldl_map]

theorem range_simple (x : Name) : (simple x).range = x.range := by
  rw [range_eq_cover, segments_simple, List.map_singleton, SourceRange.cover_singleton]

/-- One more segment widens the range. -/
theorem range_qualify (p : NamePath) (x : Name) : (p.qualify x).range = p.range.fuse x.range := by
  rw [range, segments_qualify, List.foldl_concat]
  rfl

/-! ## Scripts -/

/-- A call in a script over several walks, which are numbered as they come about. -/
inductive Call where
  /-- A walk is asked for its next segment. -/
  | next (k : ℕ)
  /-- A walk is copied; the copy is the last one. -/
  | clone (k : ℕ)
  deriving DecidableEq, Repr

section Scripts

variable {α β : Type}

/-- What one call does to the states of the walks, where `advance` is one step of a walk. -/
def Call.perform (advance : α → α) (states : List α) : Call → List α
  | next k => states.modify k advance
  | clone k => states ++ states[k]?.toList

/-- The states of all walks behind a script that begins with one walk. -/
def runScript (advance : α → α) (start : α) (script : List Call) : List α :=
  script.foldl (Call.perform advance) [start]

/-- A call acts on the images of states as it does on the states. -/
theorem Call.perform_map {f : α → β} {step : α → α} {advance : β → β}
    (h : ∀ a, advance (f a) = f (step a)) (states : List α) (call : Call) :
    call.perform advance (states.map f) = (call.perform step states).map f := by
  cases call with
  | next k =>
    apply List.ext_getElem?
    intro i
    simp only [perform, List.getElem?_modify, List.getElem?_map]
    by_cases hi : k = i
    · simp [hi, Function.comp_def, h]
    · simp [hi]
  | clone k =>
    simp only [perform, List.map_append, List.getElem?_map]
    cases states[k]? <;> rfl

/-- A script acts on the images of states as it does on the states. -/
theorem runScript_map {f : α → β} {step : α → α} {advance : β → β}
    (h : ∀ a, advance (f a) = f (step a)) (start : α) (script : List Call) :
    runScript advance (f start) script = (runScript step start script).map f := by
  have hfold : ∀ states : List α, script.foldl (Call.perform advance) (states.map f) =
      (script.foldl (Call.perform step) states).map f := by
    induction script with
    | nil => exact fun _ => rfl
    | cons call script ih =>
      intro states
      rw [List.foldl_cons, List.foldl_cons, Call.perform_map h, ih]
  exact hfold [start]

end Scripts

/-- A walk under way in a script. -/
structure Branch where
  /-- The walk. -/
  walk : Walk
  /-- What it has answered so far, the answers of its original before it was copied included. -/
  answers : List (Option Name)
  deriving Repr

/-- The walk is asked once more. -/
def Branch.advance (b : Branch) : Branch := ⟨b.walk.next.2, b.answers ++ [b.walk.next.1]⟩

/-- A walk answers with the first of the segments that it would meet, and goes on to the others. -/
theorem Walk.next_eq (w : Walk) :
    w.next.1 = w.collect.head? ∧ w.next.2.collect = w.collect.tail := by
  rcases h : w.next with ⟨_ | x, v⟩
  · rw [Walk.collect_of_next_eq_none h]
    refine ⟨rfl, Walk.collect_of_next_eq_none (v := v) ?_⟩
    -- a walk that has nothing to answer is at the end, and stays there
    rcases w with ⟨_ | ⟨y | ⟨y, rest⟩⟩⟩
    · rw [← h]
      cases h
      rfl
    · cases h
    · cases h
  · rw [Walk.collect_of_next_eq_some h]
    exact ⟨rfl, rfl⟩

/-- What a walk that has all of the segments `xs` before it answers when it is asked `n` times: the
segments in order, each of them once, and then nothing any more. -/
def answersOf (xs : List Name) (n : ℕ) : List (Option Name) :=
  (xs.take n).map some ++ List.replicate (n - xs.length) none

/-- The first answer is the first segment, and the others are those of a walk behind it. -/
theorem answersOf_succ (xs : List Name) (n : ℕ) :
    answersOf xs (n + 1) = xs.head? :: answersOf xs.tail n := by
  cases xs with
  | nil => simp [answersOf, List.replicate_succ]
  | cons x xs => simp [answersOf]

/-- A walk that is asked `n` times gives the answers for the segments before it. -/
theorem answers_iterate_advance (n : ℕ) (b : Branch) :
    (Branch.advance^[n] b).answers = b.answers ++ answersOf b.walk.collect n := by
  induction n generalizing b with
  | zero => simp [answersOf]
  | succ n ih =>
    obtain ⟨hhead, htail⟩ := b.walk.next_eq
    rw [Function.iterate_succ_apply, ih, answersOf_succ]
    simp [Branch.advance, hhead, htail]

/-- In a script every walk answers as if it were the only one: by the number of times that it, or
its original before it was copied, was asked. -/
theorem answers_runScript (p : NamePath) (script : List Call) :
    (runScript Branch.advance ⟨p.walk, []⟩ script).map Branch.answers =
      (runScript Nat.succ 0 script).map (answersOf p.segments) := by
  have hstep : ∀ n : ℕ, Branch.advance (Branch.advance^[n] ⟨p.walk, []⟩) =
      Branch.advance^[n.succ] ⟨p.walk, []⟩ := fun n =>
    (Function.iterate_succ_apply' Branch.advance n _).symm
  have hrun := runScript_map hstep 0 script
  rw [Function.iterate_zero_apply] at hrun
  rw [hrun, List.map_map]
  congr 1
  funext n
  rw [Function.comp_apply, answers_iterate_advance, List.nil_append, segments]

-- the copy goes on from one answer, its original from there, too
example : runScript Nat.succ 0 [.next 0, .clone 0, .next 1, .next 0, .next 0] = [3, 2] := by decide

/-! ## Paths and qualified names -/

theorem path_cons (x : Name) (xs : List Name) (last : Name) :
    QualifiedName.path ⟨x :: xs, last⟩ = qualified x (QualifiedName.path ⟨xs, last⟩) := rfl

/-- The path of a name has the segments of the name. -/
theorem segments_path (q : QualifiedName) : q.path.segments = q.segments := by
  rw [QualifiedName.path, segments_foldr_qualified, segments_simple, QualifiedName.segments]

/-- The name of a path has the segments of the path. -/
theorem segments_toQualifiedName (p : NamePath) : p.toQualifiedName.segments = p.segments := by
  induction p with
  | simple x =>
    rw [segments_simple]
    rfl
  | qualified x rest ih =>
    rw [segments_qualified, ← ih]
    rfl

/-- A path is the path of its name. -/
theorem path_toQualifiedName (p : NamePath) : p.toQualifiedName.path = p := by
  apply segments_injective
  rw [segments_path, segments_toQualifiedName]

/-- A name is the name of its path. -/
theorem toQualifiedName_path (q : QualifiedName) : q.path.toQualifiedName = q := by
  apply QualifiedName.segments_injective
  rw [segments_toQualifiedName, segments_path]

/-- The path agrees with the qualified name in all that can be seen of them. -/
structure AgreesWith (p : NamePath) (q : QualifiedName) : Prop where
  /-- A walk meets the segments of the name. -/
  segments_eq : p.segments = q.segments
  /-- The outermost segment is the same. -/
  first_eq : p.first = q.first
  /-- The innermost segment is the same. -/
  last_eq : p.last = q.last
  /-- Both have qualifiers or neither. -/
  isQualified_eq : p.isQualified = q.isQualified
  /-- The sole segment is the same. -/
  sole?_eq : p.sole? = q.sole?
  /-- Both cover the same range. -/
  range_eq : p.range = q.range
  /-- Without its qualifiers either is the same name at the same range. -/
  unqualified_eq : p.unqualified = q.unqualified
  /-- Both are printed alike. -/
  render_eq : p.render = q.render

/-- The path of a name is printed as the name is. -/
theorem render_path (q : QualifiedName) : q.path.render = q.render := by
  obtain ⟨qualifiers, last⟩ := q
  induction qualifiers with
  | nil => exact (QualifiedName.render_simple last).symm
  | cons x xs ih =>
    have hne : (QualifiedName.shownSegments ⟨xs, last⟩).map Name.render ≠ [] := by
      simp [QualifiedName.shownSegments]
    rw [path_cons, render, ih]
    by_cases hx : x.isNameless = true
    · simp [hx, QualifiedName.render, QualifiedName.shownSegments]
    · rw [if_neg hx, QualifiedName.render, QualifiedName.render]
      have hshown : QualifiedName.shownSegments ⟨x :: xs, last⟩ =
          x :: QualifiedName.shownSegments ⟨xs, last⟩ := by
        simp [QualifiedName.shownSegments, hx]
      rw [hshown, List.map_cons, Text.join, Text.join, List.intercalate_cons_of_ne_nil hne,
        List.append_assoc, List.singleton_append]

theorem last_path (q : QualifiedName) : q.path.last = q.last := by
  have h := getLast?_segments q.path
  rw [segments_path, QualifiedName.segments, List.getLast?_concat] at h
  exact (Option.some.inj h).symm

/-- The path of a name has the range of the name. -/
theorem range_path (q : QualifiedName) : q.path.range = q.range := by
  rw [range_eq_cover, segments_path, QualifiedName.range]

/-- The path of a name agrees with it. -/
theorem agreesWith_path (q : QualifiedName) : AgreesWith q.path q where
  segments_eq := segments_path q
  first_eq := by rcases q with ⟨_ | ⟨x, xs⟩, last⟩ <;> rfl
  last_eq := last_path q
  isQualified_eq := by rcases q with ⟨_ | ⟨x, xs⟩, last⟩ <;> rfl
  sole?_eq := by
    rcases q with ⟨_ | ⟨x, xs⟩, last⟩ <;> simp [QualifiedName.path, sole?, QualifiedName.sole?]
  range_eq := range_path q
  unqualified_eq := by rw [unqualified, last_path, range_path, QualifiedName.unqualified]
  render_eq := render_path q

/-- A name and its path are qualified alike. -/
theorem path_qualify (q : QualifiedName) (x : Name) : (q.qualify x).path = q.path.qualify x := by
  apply segments_injective
  rw [segments_path, segments_qualify, segments_path, QualifiedName.segments_qualify]

/-- The same segments make up a name and its path, or neither. -/
theorem map_path_ofSegments? (xs : List Name) :
    (QualifiedName.ofSegments? xs).map QualifiedName.path = ofSegments? xs := by
  cases h : QualifiedName.ofSegments? xs with
  | none =>
    rw [ofSegments?_eq_none_iff.mpr (QualifiedName.ofSegments?_eq_none_iff.mp h)]
    rfl
  | some q =>
    rw [← QualifiedName.segments_of_ofSegments? h, ← segments_path, ofSegments?_segments]
    rfl

/-! ## The laws -/

/-- A path is the list of its segments, and every such list but the empty one is a path. -/
structure SegmentLaws : Prop where
  /-- Only an empty list makes up no path. -/
  ofSegments?_eq_none_iff : ∀ xs : List Name, ofSegments? xs = none ↔ xs = []
  /-- The segments of a path that is made of a list are that list. -/
  map_segments_ofSegments? : ∀ xs : List Name,
    (ofSegments? xs).map segments = if xs = [] then none else some xs
  /-- A path is made up by its segments, ranges included. -/
  ofSegments?_segments : ∀ p : NamePath, ofSegments? p.segments = some p
  /-- Qualifying puts a segment behind the others. -/
  segments_qualify : ∀ (p : NamePath) (x : Name), (p.qualify x).segments = p.segments ++ [x]
  /-- The outermost segment is the first one. -/
  head?_segments : ∀ p : NamePath, p.segments.head? = some p.first
  /-- The innermost segment is the last one. -/
  getLast?_segments : ∀ p : NamePath, p.segments.getLast? = some p.last
  /-- There is a qualifier if there is more than one segment. -/
  isQualified_iff : ∀ p : NamePath, p.isQualified = true ↔ 1 < p.segments.length
  /-- Without qualifiers the path is its sole segment. -/
  sole?_eq_some_iff : ∀ (p : NamePath) (x : Name), p.sole? = some x ↔ p.segments = [x]
  /-- Taken out of the path that it was put into, a name is the same name and covers both. -/
  unqualified_qualify : ∀ (p : NamePath) (x : Name),
    ((p.qualify x).unqualified == x) = true ∧
      (p.qualify x).unqualified.range = p.range.fuse x.range
  /-- Without its qualifiers a path covers what it covered with them. -/
  range_simple_unqualified : ∀ p : NamePath, (simple p.unqualified).range = p.range
  /-- In every script all walks answer with the segments in order, each once, and then nothing. -/
  answers_runScript : ∀ (p : NamePath) (script : List Call),
    (runScript Branch.advance ⟨p.walk, []⟩ script).map Branch.answers =
      (runScript Nat.succ 0 script).map (answersOf p.segments)

theorem segmentLaws : SegmentLaws where
  ofSegments?_eq_none_iff _ := ofSegments?_eq_none_iff
  map_segments_ofSegments? := map_segments_ofSegments?
  ofSegments?_segments := ofSegments?_segments
  segments_qualify := segments_qualify
  head?_segments := head?_segments
  getLast?_segments := getLast?_segments
  isQualified_iff := isQualified_iff
  sole?_eq_some_iff := sole?_eq_some_iff
  unqualified_qualify p x := by
    rw [unqualified, last_qualify, Name.range_atRange, range_qualify]
    exact ⟨Name.atRange_beq x _, rfl⟩
  range_simple_unqualified p := by rw [range_simple, unqualified, Name.range_atRange]
  answers_runScript := answers_runScript

/-- Paths are the lists of names that are not empty, whether they are built by a fold, extended by
recursion or read by a walk. Qualified names are the same lists: either turns into the other and
back, and all operations agree. -/
theorem segmentLaws_and_agreement :
    SegmentLaws ∧
      (∀ q : QualifiedName, AgreesWith q.path q ∧ q.path.toQualifiedName = q ∧
        ∀ x, (q.qualify x).path = q.path.qualify x) ∧
      (∀ p : NamePath, p.toQualifiedName.path = p) ∧
      ∀ xs, (QualifiedName.ofSegments? xs).map QualifiedName.path = ofSegments? xs := by
  refine ⟨segmentLaws, fun q => ⟨agreesWith_path q, toQualifiedName_path q, path_qualify q⟩, ?_, ?_⟩
  · exact path_toQualifiedName
  · exact map_path_ofSegments?

end NamePath

end MixfixNames
