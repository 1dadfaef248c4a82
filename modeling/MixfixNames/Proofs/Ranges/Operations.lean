/-
# Ranges Do Not Count

What a name, a qualified name or a module name is does not depend on where it was written, and
neither does anything that is done with it. The main statement, `operations_areRangeBlind`, goes
through the operations of the library: those whose result carries no ranges have the same result
for values that are alike, and those whose result does have results that are alike and lose their
ranges with those of the arguments. The search for a free name is among them, although it may ask
about any number of variations, as long as it does not itself tell alike names apart.
-/
import MixfixNames.Mark
import MixfixNames.ModuleName.File
import MixfixNames.Proofs.Ranges.Alike

namespace MixfixNames

/-! ## What values are -/

/-- Equality, order and what is hashed ignore ranges, and without its ranges a value is the same. -/
structure IdentityIgnoresRanges (α : Type) [Ranged α] [BEq α] [Ord α] [Feeds α] : Prop where
  /-- Alike values are equal to the same values. -/
  beq : IgnoresRanges fun p : α × α => p.1 == p.2
  /-- Alike values have the same place in the order. -/
  compare : IgnoresRanges fun p : α × α => compare p.1 p.2
  /-- Alike values feed the same to a hasher, whose hash is then the same. -/
  feed : IgnoresRanges (feed : α → List HashItem)
  /-- Without its ranges a value is the same. -/
  erase_beq : ∀ x : α, (erase x == x) = true

/-! ## Marks -/

section Mark

variable {α : Type} [Ranged α] [Markable α]

/-- What loses its mark without regard to ranges is marked without regard to them. -/
theorem ignoresRanges_isMarked (h : CarriesRanges (strip? : α → Option α)) :
    IgnoresRanges (isMarked : α → Bool) := by
  apply ignoresRanges_of_erase
  intro x
  rw [isMarked, isMarked, h.erase_comm]
  exact Option.isSome_map

/-- What loses its mark and carries its ranges along does so too if it may have no mark. -/
theorem carriesRanges_unmark (h : CarriesRanges (strip? : α → Option α)) :
    CarriesRanges (unmark : α → α) := by
  apply carriesRanges_of_erase
  intro x
  rw [unmark, unmark, h.erase_comm]
  cases strip? x <;> rfl

end Mark

/-! ## Names -/

namespace Name

/-- At another range a name has the same next variation, at that range. -/
theorem next?_atRange (x : Name) (range : SourceRange) :
    (x.atRange range).next? = x.next?.map (·.atRange range) := by
  obtain ⟨identity, r⟩ := x
  cases identity with
  | anonymous id => rfl
  | identifier parts =>
    show (if areNamelessParts parts = true then none else _) =
      Option.map _ (if areNamelessParts parts = true then none else _)
    split
    · rfl
    · rw [Option.map_map]
      rfl

/-- The search with its names at another range. -/
def Search.atRange (s : Search) (range : SourceRange) : Search :=
  ⟨s.found.map (·.atRange range), s.lastAsked.atRange range, s.calls⟩

/-- A test of names that does not tell apart names that are equal. -/
def RespectsEquality (taken : ℕ → Name → Bool) : Prop :=
  ∀ asked x y, (x == y) = true → taken asked x = taken asked y

/-- A search that ends goes the same way from the same name at another range. -/
theorem ask_atRange {taken : ℕ → Name → Bool} (ht : RespectsEquality taken)
    (range : SourceRange) : ∀ asked x s, ask taken asked x = some s →
      ask taken asked (x.atRange range) = some (s.atRange range) := by
  -- by induction along a search that ends: at each name both searches take the same branch
  apply ask.partial_correctness
  intro later ih asked x s hs
  have htaken : taken asked (x.atRange range) = taken asked x := ht _ _ _ (atRange_beq x range)
  split at hs
  · next hx =>
    have hx' := htaken.trans hx
    split at hs
    · next hn =>
      cases hs
      exact ask_of_next?_eq_none hx' (by rw [next?_atRange, hn]; rfl)
    · next y hn =>
      rw [ask_of_next? hx' (by rw [next?_atRange, hn]; rfl)]
      exact ih _ _ _ hs
  · next hx =>
    cases hs
    exact ask_of_not_taken (htaken.trans (Bool.eq_false_iff.mpr hx))

/-- Erasing the range of a name erases those of the names that a search asks about. A search that
does not end does not end from the same name without its range either. -/
theorem carriesRanges_ask {taken : ℕ → Name → Bool} (ht : RespectsEquality taken) (asked : ℕ) :
    CarriesRanges (ask taken asked) := by
  apply carriesRanges_of_erase
  intro x
  cases hx : ask taken asked x with
  | some s => exact ask_atRange ht .unknown asked x s hx
  | none =>
    cases he : ask taken asked (erase x) with
    | none => rfl
    | some s =>
      -- then the search from `x` itself, which is `erase x` at the range of `x`, would end, too
      have hback := ask_atRange ht x.range asked (erase x) s he
      exact absurd (hx.symm.trans hback) (Option.some_ne_none _).symm

/-- A name is found among the same names without ranges. -/
theorem contains_erase (avoid : List Name) (x : Name) :
    (erase avoid).contains x = avoid.contains x := by
  rw [List.contains_eq_any_beq, List.contains_eq_any_beq]
  exact List.any_map

/-- Which names are to be avoided does not depend on ranges. -/
theorem respectsEquality_refuses (avoid : List Name) (refusals : ℕ) :
    RespectsEquality (refuses avoid refusals) := by
  intro asked x y hxy
  have hcontains : avoid.contains x = avoid.contains y := by
    rw [List.contains_eq_any_beq, List.contains_eq_any_beq]
    congr 1
    funext z
    show (x.identity == z.identity) = (y.identity == z.identity)
    rw [beq_iff.mp hxy]
  rw [refuses, refuses, hcontains]

/-- The search with a number of refusals carries ranges. -/
theorem carriesRanges_search (refusals : ℕ) :
    CarriesRanges fun p : List Name × Name => search p.1 refusals p.2 := by
  apply carriesRanges_of_erase
  rintro ⟨avoid, x⟩
  have hrefuses : refuses (erase avoid) refusals = refuses avoid refusals := by
    funext asked y
    rw [refuses, refuses, contains_erase]
  have hask := (carriesRanges_ask (respectsEquality_refuses avoid refusals) 0).erase_comm x
  show (ask (refuses (erase avoid) refusals) 0 (erase x)).getD _ = erase (Option.getD _ _)
  rw [hrefuses, hask]
  cases ask (refuses avoid refusals) 0 x <;> rfl

/-- The operations on names are blind to ranges. -/
structure AreRangeBlind : Prop where
  /-- What a name is does not depend on ranges. -/
  identity : IdentityIgnoresRanges Name
  /-- What is compared, ordered and hashed of a name does not depend on ranges. -/
  key : IgnoresRanges Name.identity
  /-- A name is the same name at any range. -/
  atRange_beq : ∀ (x : Name) (range : SourceRange), (x.atRange range == x) = true
  /-- Without its range a name has none. -/
  range_erase : ∀ x : Name, (erase x).range = .unknown
  /-- A name is printed, inspected and searched by without regard to ranges. -/
  text : IgnoresRanges render ∧ IgnoresRanges inspect ∧ IgnoresRanges shownParts ∧
    IgnoresRanges fragments
  /-- The shape of a name does not depend on ranges. -/
  shape : IgnoresRanges fixity? ∧ IgnoresRanges isOperator ∧ IgnoresRanges isOpen ∧
    IgnoresRanges holeCount
  /-- Whether a name is the wildcard does not depend on ranges. -/
  wildcard : IgnoresRanges isAnonymous ∧ IgnoresRanges isNameless
  /-- Marking carries ranges. -/
  marking : CarriesRanges (Markable.mark : Name → Name) ∧
    CarriesRanges (Markable.strip? : Name → Option Name) ∧
    CarriesRanges (unmark : Name → Name) ∧ IgnoresRanges (isMarked : Name → Bool)
  /-- Varying carries ranges, and roots do not depend on them. -/
  variation : CarriesRanges next? ∧ IgnoresRanges root ∧
    IgnoresRanges fun p : Name × Name => p.1.shareRoot p.2
  /-- The search for a name that is not taken carries ranges, in all that it reports, if what is
  taken does not depend on them. -/
  search : ∀ taken, RespectsEquality taken → ∀ asked, CarriesRanges (ask taken asked)
  /-- The search for a name outside a list carries ranges. -/
  firstFree : CarriesRanges fun p : List Name × Name => firstFree? p.1 p.2

/-- What a name is does not depend on ranges. -/
theorem identityIgnoresRanges : IdentityIgnoresRanges Name where
  beq := ignoresRanges_of_erase fun _ => rfl
  compare := ignoresRanges_of_erase fun _ => rfl
  feed := ignoresRanges_of_erase fun _ => rfl
  erase_beq x := atRange_beq x .unknown

/-- Taking the mark off a name carries ranges. -/
theorem carriesRanges_strip? : CarriesRanges (Markable.strip? : Name → Option Name) := by
  apply carriesRanges_of_erase
  rintro ⟨identity, range⟩
  cases identity with
  | anonymous id => rfl
  | identifier parts =>
    show (Part.stripFirst? parts).map _ = Option.map erase ((Part.stripFirst? parts).map _)
    rw [Option.map_map]
    rfl

/-- Marking a name carries ranges. -/
theorem carriesRanges_mark : CarriesRanges (Markable.mark : Name → Name) := by
  apply carriesRanges_of_erase
  rintro ⟨identity, range⟩
  cases identity <;> rfl

/-- All operations on names are blind to ranges. -/
theorem areRangeBlind : AreRangeBlind where
  identity := identityIgnoresRanges
  key := ignoresRanges_of_erase fun _ => rfl
  atRange_beq := atRange_beq
  range_erase _ := rfl
  text := by
    refine ⟨?_, ?_, ?_, ?_⟩ <;> exact ignoresRanges_of_erase fun _ => rfl
  shape := by
    refine ⟨?_, ?_, ?_, ?_⟩ <;> exact ignoresRanges_of_erase fun _ => rfl
  wildcard := by
    refine ⟨?_, ?_⟩ <;> exact ignoresRanges_of_erase fun _ => rfl
  marking := ⟨carriesRanges_mark, carriesRanges_strip?, carriesRanges_unmark carriesRanges_strip?,
    ignoresRanges_isMarked carriesRanges_strip?⟩
  variation := by
    refine ⟨carriesRanges_of_erase fun x => next?_atRange x .unknown, ?_, ?_⟩ <;>
      exact ignoresRanges_of_erase fun _ => rfl
  search _ ht := carriesRanges_ask ht
  firstFree := by
    apply carriesRanges_of_erase
    intro p
    have h := (carriesRanges_search 0).erase_comm p
    exact congrArg Search.found h

end Name

/-! ## Qualified names -/

namespace QualifiedName

theorem levels_erase (q : QualifiedName) : (erase q).levels = q.levels := by
  show (q.qualifiers.map Name.eraseRange).map _ ++ _ = q.levels
  rw [List.map_map]
  rfl

theorem shownSegments_erase (q : QualifiedName) :
    (erase q).shownSegments = erase q.shownSegments := by
  show (q.qualifiers.map Name.eraseRange).filter _ ++ [q.last.eraseRange] =
    q.shownSegments.map Name.eraseRange
  rw [shownSegments, List.filter_map, List.map_append, List.map_singleton]
  rfl

/-- Without ranges a qualified name is printed the same. -/
theorem render_erase (q : QualifiedName) : (erase q).render = q.render := by
  rw [render, render, shownSegments_erase]
  show Text.join _ ((q.shownSegments.map Name.eraseRange).map Name.render) = _
  rw [List.map_map]
  rfl

theorem inspect_erase (q : QualifiedName) : (erase q).inspect = q.inspect :=
  congrArg (fun text => "QName(".toList ++ text ++ [')']) (render_erase q)

theorem range_eq_unknown_of_mem_segments_erase {q : QualifiedName} {x : Name}
    (h : x ∈ (erase q).segments) : x.range = .unknown := by
  rw [segments_erase] at h
  obtain ⟨y, -, rfl⟩ := List.mem_map.mp h
  rfl

/-- Without ranges a qualified name has none either. -/
theorem range_erase (q : QualifiedName) : (erase q).range = .unknown := by
  apply SourceRange.cover_eq_of_forall
  · simp [segments]
  · intro r hr
    obtain ⟨x, hx, rfl⟩ := List.mem_map.mp hr
    exact range_eq_unknown_of_mem_segments_erase hx

/-- What a qualified name is does not depend on ranges. -/
theorem identityIgnoresRanges : IdentityIgnoresRanges QualifiedName where
  beq := ignoresRanges_of_erase fun p => by
    show ((erase p.1).levels == (erase p.2).levels) = (p.1.levels == p.2.levels)
    rw [levels_erase, levels_erase]
  compare := ignoresRanges_of_erase fun p => by
    show compare (erase p.1).levels (erase p.2).levels = compare p.1.levels p.2.levels
    rw [levels_erase, levels_erase]
  feed := ignoresRanges_of_erase fun q => by
    show (erase q).levels.flatMap feed = q.levels.flatMap feed
    rw [levels_erase]
  erase_beq q := beq_iff.mpr (levels_erase q)

/-- Making a qualified name of segments carries their ranges. -/
theorem carriesRanges_ofSegments? : CarriesRanges ofSegments? := by
  apply carriesRanges_of_erase
  intro xs
  show (xs.map Name.eraseRange).getLast?.map _ = (xs.getLast?.map _).map eraseRange
  rw [List.getLast?_map, Option.map_map, Option.map_map]
  congr 1
  funext x
  show QualifiedName.mk _ _ = QualifiedName.mk _ _
  rw [List.map_dropLast]
  rfl

/-- The outermost segment brings its range along. -/
theorem carriesRanges_first : CarriesRanges first := by
  apply carriesRanges_of_erase
  rintro ⟨_ | ⟨x, xs⟩, last⟩ <;> rfl

theorem carriesRanges_sole? : CarriesRanges sole? := by
  apply carriesRanges_of_erase
  rintro ⟨_ | ⟨x, xs⟩, last⟩ <;> rfl

/-- One more segment brings its range along. -/
theorem carriesRanges_qualify :
    CarriesRanges fun p : QualifiedName × Name => p.1.qualify p.2 := by
  apply carriesRanges_of_erase
  rintro ⟨q, x⟩
  show QualifiedName.mk (erase q).segments _ = QualifiedName.mk (q.segments.map _) _
  rw [segments_erase]
  rfl

/-- Taking the qualifiers off carries the range of the whole name. -/
theorem carriesRanges_unqualified : CarriesRanges unqualified := by
  apply carriesRanges_of_erase
  intro q
  show (erase q.last).atRange (erase q).range = _
  rw [range_erase]
  rfl

/-- Marking a qualified name carries ranges. -/
theorem carriesRanges_mark : CarriesRanges (Markable.mark : QualifiedName → QualifiedName) := by
  apply carriesRanges_of_erase
  rintro ⟨_ | ⟨x, xs⟩, last⟩
  · exact congrArg simple (Name.carriesRanges_mark.erase_comm last)
  · exact congrArg (fun y => QualifiedName.mk (y :: erase xs) (erase last))
      (Name.carriesRanges_mark.erase_comm x)

/-- Taking the mark off a qualified name carries ranges. -/
theorem carriesRanges_strip? :
    CarriesRanges (Markable.strip? : QualifiedName → Option QualifiedName) := by
  apply carriesRanges_of_erase
  rintro ⟨_ | ⟨x, xs⟩, last⟩
  · show (Markable.strip? (erase last)).map simple = ((Markable.strip? last).map simple).map erase
    rw [Name.carriesRanges_strip?.erase_comm]
    cases Markable.strip? last <;> rfl
  · show (Markable.strip? (erase x)).map _ = ((Markable.strip? x).map _).map erase
    rw [Name.carriesRanges_strip?.erase_comm]
    cases Markable.strip? x <;> rfl

/-- The operations on qualified names are blind to ranges. -/
structure AreRangeBlind : Prop where
  /-- What a qualified name is does not depend on ranges. -/
  identity : IdentityIgnoresRanges QualifiedName
  /-- What is compared, ordered and hashed of a qualified name does not depend on ranges. -/
  key : IgnoresRanges levels
  /-- Without its ranges a qualified name has none in any segment, and so none covers it. -/
  range_erase : ∀ q : QualifiedName, (erase q).range = .unknown ∧
    ∀ x ∈ (erase q).segments, x.range = .unknown
  /-- A qualified name is printed and inspected without regard to ranges. -/
  text : IgnoresRanges render ∧ IgnoresRanges inspect
  /-- The shape of a qualified name does not depend on ranges. -/
  shape : IgnoresRanges holeCount ∧ IgnoresRanges isNameless ∧ IgnoresRanges isQualified
  /-- Taking a qualified name apart and putting it together carries ranges. -/
  segments : CarriesRanges segments ∧ CarriesRanges ofSegments? ∧ CarriesRanges first ∧
    CarriesRanges last ∧ CarriesRanges sole?
  /-- Qualifying and the opposite carry ranges. -/
  qualification : CarriesRanges (fun p : QualifiedName × Name => p.1.qualify p.2) ∧
    CarriesRanges unqualified
  /-- Marking carries ranges. -/
  marking : CarriesRanges (Markable.mark : QualifiedName → QualifiedName) ∧
    CarriesRanges (Markable.strip? : QualifiedName → Option QualifiedName) ∧
    CarriesRanges (unmark : QualifiedName → QualifiedName) ∧
    IgnoresRanges (isMarked : QualifiedName → Bool)

/-- All operations on qualified names are blind to ranges. -/
theorem areRangeBlind : AreRangeBlind where
  identity := identityIgnoresRanges
  key := ignoresRanges_of_erase levels_erase
  range_erase q := ⟨range_erase q, fun _ => range_eq_unknown_of_mem_segments_erase⟩
  text := ⟨ignoresRanges_of_erase render_erase, ignoresRanges_of_erase inspect_erase⟩
  shape := by
    refine ⟨ignoresRanges_of_erase fun _ => rfl, ignoresRanges_of_erase ?_,
      ignoresRanges_of_erase ?_⟩ <;> rintro ⟨_ | ⟨x, xs⟩, last⟩ <;> rfl
  segments := ⟨carriesRanges_of_erase segments_erase, carriesRanges_ofSegments?,
    carriesRanges_first, carriesRanges_of_erase fun _ => rfl, carriesRanges_sole?⟩
  qualification := ⟨carriesRanges_qualify, carriesRanges_unqualified⟩
  marking := ⟨carriesRanges_mark, carriesRanges_strip?, carriesRanges_unmark carriesRanges_strip?,
    ignoresRanges_isMarked carriesRanges_strip?⟩

end QualifiedName

/-! ## Module names -/

namespace ModuleName

/-- What a module name is does not depend on ranges. -/
theorem identityIgnoresRanges : IdentityIgnoresRanges ModuleName where
  beq := ignoresRanges_of_erase fun _ => rfl
  compare := ignoresRanges_of_erase fun _ => rfl
  feed := ignoresRanges_of_erase fun _ => rfl
  erase_beq _ := beq_iff.mpr rfl

/-- The module name of a qualified name carries its range. -/
theorem carriesRanges_ofQualified : CarriesRanges ofQualified := by
  apply carriesRanges_of_erase
  intro q
  have hparts : (erase q).segments.map Name.render = q.segments.map Name.render := by
    rw [QualifiedName.segments_erase]
    exact List.map_map
  show ModuleName.mk (erase q).range ((erase q).segments.map Name.render) _ =
    ModuleName.mk .unknown (q.segments.map Name.render) _
  simp only [QualifiedName.range_erase, hparts]

/-- The operations on module names are blind to ranges. -/
structure AreRangeBlind : Prop where
  /-- What a module name is does not depend on ranges. -/
  identity : IdentityIgnoresRanges ModuleName
  /-- A module name is the same module name at any range. -/
  atRange_beq : ∀ (m : ModuleName) (range : SourceRange), (m.atRange range == m) = true
  /-- Without its range a module name has none. -/
  range_erase : ∀ m : ModuleName, (erase m).range = .unknown
  /-- A module name is printed and inspected without regard to ranges. -/
  text : IgnoresRanges render ∧ IgnoresRanges inspect
  /-- The parts of a module name do not depend on ranges. -/
  parts : IgnoresRanges parts ∧ IgnoresRanges length
  /-- Taking a module name from a qualified name carries ranges. -/
  ofQualified : CarriesRanges ofQualified
  /-- The file and the root of a module do not depend on ranges. -/
  files : (∀ extension, IgnoresRanges fun m : ModuleName => m.toFile extension) ∧
    ∀ file, IgnoresRanges fun m : ModuleName => m.rootOf file

/-- All operations on module names are blind to ranges. -/
theorem areRangeBlind : AreRangeBlind where
  identity := identityIgnoresRanges
  atRange_beq _ _ := beq_iff.mpr rfl
  range_erase _ := rfl
  text := ⟨ignoresRanges_of_erase fun _ => rfl, ignoresRanges_of_erase fun _ => rfl⟩
  parts := ⟨ignoresRanges_of_erase fun _ => rfl, ignoresRanges_of_erase fun _ => rfl⟩
  ofQualified := carriesRanges_ofQualified
  files := ⟨fun _ => ignoresRanges_of_erase fun _ => rfl,
    fun _ => ignoresRanges_of_erase fun _ => rfl⟩

end ModuleName

/-- No operation on names, qualified names and module names depends on their ranges. -/
theorem operations_areRangeBlind :
    Name.AreRangeBlind ∧ QualifiedName.AreRangeBlind ∧ ModuleName.AreRangeBlind :=
  ⟨Name.areRangeBlind, QualifiedName.areRangeBlind, ModuleName.areRangeBlind⟩

end MixfixNames
