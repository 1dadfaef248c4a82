/-
# Naming a Scope

A scope compares names by their parts, but what must not clash is what is printed of them. For names
that are read from text the two come to the same: whatever the scope gives for such a name is a
variation of it and is read back from its text, so a text that was printed before would be a name
that was given before. The main statement, `names_apart`, says this of scopes that are asked for any
number of names, and of the program, which is asked for one.
-/
import Mathlib.Data.List.ReduceOption
import MixfixNames.CommandLine.Answer
import MixfixNames.Name.Variation
import MixfixNames.Proofs.Name.FreeName
import MixfixNames.Proofs.Name.ReadBack

namespace MixfixNames

/-! ## One name -/

namespace Name

variable {avoid : List Name} {x y : Name}

/-- The search for a name outside a list settles it for the names in the list. -/
theorem settles_search (avoid : List Name) (x : Name) :
    (search avoid 0 x).Settles (identities avoid) x := by
  obtain ⟨s, hs, hsettles⟩ := exists_settles (identities avoid) x
  have hrefuses : refuses avoid 0 = isIn (identities avoid) := by
    funext asked y
    rw [refuses, isIn, Bool.eq_iff_iff, decide_eq_true_eq, ← contains_iff]
    simp
  have hask := ask_refuses_eq_some avoid 0 x
  rw [hrefuses, hs] at hask
  rwa [← Option.some.inj hask]

/-- The search for a free name finds none exactly if the name is taken and has no variations. -/
theorem firstFree?_eq_none_iff :
    firstFree? avoid x = none ↔ avoid.contains x = true ∧ x.next? = none := by
  rw [firstFree?, (settles_search avoid x).found_eq_none_iff, contains_iff, next?_eq_none_iff]

/-- What the search for a free name finds is a variation that is not taken. -/
theorem of_firstFree? (h : firstFree? avoid x = some y) :
    (∃ k, variation? k x = some y) ∧ avoid.contains y = false := by
  obtain ⟨k, -, -, hk, hnot, -, -⟩ := (settles_search avoid x).found_least y h
  exact ⟨⟨k, hk⟩, Bool.eq_false_iff.mpr (mt contains_iff.mp hnot)⟩

end Name

/-! ## One request -/

namespace Scope

/-- The names of the scope are read back from what is printed of them, and no two of them are
printed alike. -/
structure IsLegible (s : Scope) : Prop where
  /-- Every name is what its printed text is read as. -/
  readsBack : ∀ x ∈ s.names, x.ReadsBack
  /-- No text is printed twice. -/
  nodup : (s.names.map Name.render).Nodup

/-- The name that is given, if there is one, is added to the scope. -/
theorem names_give (s : Scope) (x : Name) :
    (s.give x).2.names = (s.give x).1.toList ++ s.names := by
  rw [give]
  cases Name.firstFree? s.names x <;> rfl

theorem answer_give (s : Scope) (x : Name) : (s.give x).1 = Name.firstFree? s.names x := by
  rw [give]
  cases Name.firstFree? s.names x <;> rfl

/-- A name that is read back keeps the scope legible, whatever is given for it. -/
theorem IsLegible.give {s : Scope} (hs : s.IsLegible) {x : Name} (hx : x.ReadsBack) :
    (s.give x).2.IsLegible := by
  cases h : Name.firstFree? s.names x with
  | none =>
    have hsame : (s.give x).2 = s := by rw [Scope.give, h]
    rwa [hsame]
  | some y =>
    obtain ⟨⟨k, hk⟩, hfree⟩ := Name.of_firstFree? h
    have hy : y.ReadsBack := hx.variation? hk
    have hmore : (s.give x).2 = ⟨y :: s.names⟩ := by rw [Scope.give, h]
    rw [hmore]
    refine ⟨fun z hz => ?_, ?_⟩
    · rcases List.mem_cons.mp hz with rfl | hz
      · exact hy
      · exact hs.readsBack z hz
    · rw [List.map_cons, List.nodup_cons]
      refine ⟨fun hmem => ?_, hs.nodup⟩
      -- a name that is printed like `y` would be `y`, which is not taken
      obtain ⟨z, hz, hzy⟩ := List.mem_map.mp hmem
      have hsame := Name.beq_of_render_eq hy (hs.readsBack z hz) hzy.symm
      rw [List.contains_iff_exists_mem_beq.mpr ⟨z, hz, hsame⟩] at hfree
      cases hfree

/-! ## Many requests -/

/-- Names that are read back keep the scope legible, however many there are. -/
theorem IsLegible.giveAll {s : Scope} (hs : s.IsLegible) {xs : List Name}
    (hxs : ∀ x ∈ xs, x.ReadsBack) : (s.giveAll xs).2.IsLegible := by
  induction xs generalizing s with
  | nil => exact hs
  | cons x xs ih =>
    exact ih (hs.give (hxs x List.mem_cons_self)) fun y hy => hxs y (List.mem_cons_of_mem x hy)

/-- A scope has the names that it has given, the last one first. -/
theorem names_giveAll (s : Scope) (xs : List Name) :
    (s.giveAll xs).2.names = (s.giveAll xs).1.reduceOption.reverse ++ s.names := by
  induction xs generalizing s with
  | nil => rfl
  | cons x xs ih =>
    rw [giveAll, ih, names_give]
    cases (s.give x).1 <;> simp

/-- The first answers are those to the first requests. -/
theorem giveAll_take (s : Scope) (xs : List Name) (i : ℕ) :
    (s.giveAll (xs.take i)).1 = (s.giveAll xs).1.take i := by
  induction xs generalizing s i with
  | nil => simp [giveAll]
  | cons x xs ih =>
    cases i with
    | zero => rfl
    | succ i => rw [List.take_succ_cons, giveAll, giveAll, List.take_succ_cons, ih]

/-- Every request is answered by the scope behind those before it. -/
theorem getElem?_giveAll (s : Scope) (xs : List Name) (i : ℕ) :
    (s.giveAll xs).1[i]? = xs[i]?.map fun x => ((s.giveAll (xs.take i)).2.give x).1 := by
  induction xs generalizing s i with
  | nil => rfl
  | cons x xs ih =>
    cases i with
    | zero => rfl
    | succ i =>
      rw [giveAll, List.getElem?_cons_succ, ih, List.getElem?_cons_succ, List.take_succ_cons,
        giveAll]

/-- The answers of a scope to raw identifiers, one for each: names that are printed apart and read
back, the name of the identifier itself unless it was given before, and none for an identifier of
nothing but underscores that was given before. -/
structure NamesApart (raws : List (SourceRange × Text)) (answers : List (Option Name)) : Prop where
  /-- Every identifier is answered. -/
  length_eq : answers.length = raws.length
  /-- No two names are printed alike. -/
  nodup : (answers.reduceOption.map Name.render).Nodup
  /-- Every name is read back from what is printed of it. -/
  readsBack : ∀ x ∈ answers.reduceOption, x.ReadsBack
  /-- The name of an identifier is kept if it was not given before. -/
  kept : ∀ i r, raws[i]? = some r →
    (answers.take i).reduceOption.contains (Name.ofRaw r.1 r.2) = false →
    answers[i]? = some (some (Name.ofRaw r.1 r.2))
  /-- Nothing is given exactly for an identifier of underscores whose name was given before. -/
  none_iff : ∀ i r, raws[i]? = some r →
    (answers[i]? = some none ↔ (∀ c ∈ r.2, c = underscore) ∧
      (answers.take i).reduceOption.contains (Name.ofRaw r.1 r.2) = true)

/-- The names for a sequence of raw identifiers. -/
def namesOfRaws (raws : List (SourceRange × Text)) : List Name :=
  raws.map fun r => Name.ofRaw r.1 r.2

/-- The answer to one of many raw identifiers is what the search finds that avoids the answers
before it. -/
theorem getElem?_giveAll_empty {raws : List (SourceRange × Text)} {i : ℕ} {r : SourceRange × Text}
    (h : raws[i]? = some r) :
    ∃ avoid : List Name,
      (∀ x, avoid.contains x =
        ((empty.giveAll (namesOfRaws raws)).1.take i).reduceOption.contains x) ∧
      (empty.giveAll (namesOfRaws raws)).1[i]? =
        some (Name.firstFree? avoid (Name.ofRaw r.1 r.2)) := by
  refine ⟨(empty.giveAll ((namesOfRaws raws).take i)).2.names, fun x => ?_, ?_⟩
  · rw [names_giveAll, giveAll_take, empty, List.append_nil, List.contains_reverse]
  · rw [getElem?_giveAll, namesOfRaws, List.getElem?_map, h, ← answer_give]
    rfl

/-- The names that are given for raw identifiers are apart. -/
theorem namesApart_giveAll (raws : List (SourceRange × Text)) :
    NamesApart raws (empty.giveAll (namesOfRaws raws)).1 := by
  have hnew : empty.IsLegible := ⟨fun x hx => absurd hx List.not_mem_nil, List.nodup_nil⟩
  have hread : ∀ x ∈ namesOfRaws raws, x.ReadsBack := by
    intro x hx
    obtain ⟨r, -, rfl⟩ := List.mem_map.mp hx
    exact Name.readsBack_ofRaw r.1 r.2
  have hlegible := hnew.giveAll hread
  have hnames := names_giveAll empty (namesOfRaws raws)
  rw [empty, List.append_nil, ← empty] at hnames
  refine ⟨?_, ?_, fun x hx => ?_, fun i r h hfree => ?_, fun i r h => ?_⟩
  · rw [length_giveAll, namesOfRaws, List.length_map]
  · have hnodup := hlegible.nodup
    rwa [hnames, List.map_reverse, List.nodup_reverse] at hnodup
  · apply hlegible.readsBack
    rw [hnames]
    exact List.mem_reverse.mpr hx
  · obtain ⟨avoid, havoid, hanswer⟩ := getElem?_giveAll_empty h
    rw [hanswer, Name.firstFree?_of_not_contains ((havoid _).trans hfree)]
  · obtain ⟨avoid, havoid, hanswer⟩ := getElem?_giveAll_empty h
    rw [hanswer, Option.some.injEq, Name.firstFree?_eq_none_iff, havoid,
      Name.next?_ofRaw_eq_none_iff, and_comm]

end Scope

/-! ## The program -/

namespace CommandLine

/-- The raw identifier is taken and holds nothing but underscores. -/
def IsStuck (raw : Text) (taken : List Text) : Prop :=
  raw ∈ taken ∧ ∀ c ∈ raw, c = underscore

instance (raw : Text) (taken : List Text) : Decidable (IsStuck raw taken) :=
  inferInstanceAs (Decidable (_ ∧ _))

/-- Identifiers that were read are among others exactly if the texts are. -/
theorem contains_map_ofRaw_iff (raw : Text) (taken : List Text) :
    (taken.map (Name.ofRaw .unknown)).contains (Name.ofRaw .unknown raw) = true ↔ raw ∈ taken := by
  rw [List.contains_iff_exists_mem_beq]
  constructor
  · rintro ⟨x, hx, hsame⟩
    obtain ⟨t, ht, rfl⟩ := List.mem_map.mp hx
    rwa [Name.ofRaw_beq_iff.mp hsame]
  · intro h
    exact ⟨_, List.mem_map_of_mem h, Name.ofRaw_beq_iff.mpr rfl⟩

/-- Nothing is found exactly for an identifier that is stuck. -/
theorem firstFree?_eq_none_iff_isStuck (raw : Text) (taken : List Text) :
    Name.firstFree? (taken.map (Name.ofRaw .unknown)) (Name.ofRaw .unknown raw) = none ↔
      IsStuck raw taken := by
  rw [Name.firstFree?_eq_none_iff, contains_map_ofRaw_iff, Name.next?_ofRaw_eq_none_iff, IsStuck]

/-- The text that is printed for an identifier that is not stuck is not taken. -/
theorem nextFree_notMem {raw : Text} {taken : List Text} (h : ¬ IsStuck raw taken) :
    nextFree raw taken ∉ taken := by
  cases hy : Name.firstFree? (taken.map (Name.ofRaw .unknown)) (Name.ofRaw .unknown raw) with
  | none => exact absurd ((firstFree?_eq_none_iff_isStuck raw taken).mp hy) h
  | some y =>
    obtain ⟨⟨k, hk⟩, hfree⟩ := Name.of_firstFree? hy
    have hback : y.ReadsBack := (Name.readsBack_ofRaw .unknown raw).variation? hk
    have hrange : y.range = .unknown := Name.range_of_variation? hk
    rw [nextFree, hy]
    intro hmem
    rw [← hback, hrange, (contains_map_ofRaw_iff y.render taken).mpr hmem] at hfree
    cases hfree

/-- The text of a variation is not the remark that there is none. -/
theorem render_ne_remark {raw : Text} {k : ℕ} {y : Name}
    (h : Name.variation? k (Name.ofRaw .unknown raw) = some y) :
    y.render ≠ raw ++ " is taken and has no variations".toList := by
  intro hremark
  cases k with
  | zero =>
    obtain rfl := Option.some.inj h
    rw [Name.render_ofRaw] at hremark
    exact absurd (List.self_eq_append_right.mp hremark) (by decide)
  | succ k =>
    -- a variation ends in a counter or a hole, the remark in a letter
    rw [Name.variation?_succ_eq_bind_next?] at h
    obtain ⟨z, -, hz⟩ := Option.bind_eq_some_iff.mp h
    obtain ⟨c, hc, hlast⟩ := Name.exists_getLast?_render_of_next? hz
    have hs : (raw ++ " is taken and has no variations".toList).getLast? = some 's' := by
      rw [List.getLast?_append]
      rfl
    rw [hremark, hs] at hc
    obtain rfl := Option.some.inj hc
    revert hlast
    decide

/-- The remark is printed exactly for an identifier that is stuck. -/
theorem nextFree_eq_remark_iff (raw : Text) (taken : List Text) :
    nextFree raw taken = raw ++ " is taken and has no variations".toList ↔ IsStuck raw taken := by
  rw [← firstFree?_eq_none_iff_isStuck, nextFree]
  cases hy : Name.firstFree? (taken.map (Name.ofRaw .unknown)) (Name.ofRaw .unknown raw) with
  | none => simp
  | some y =>
    obtain ⟨⟨k, hk⟩, -⟩ := Name.of_firstFree? hy
    exact iff_of_false (render_ne_remark hk) (Option.some_ne_none y)

/-! ### Command lines -/

/-- A taken name as the value in an argument. -/
def takenArgument (t : Text) : Text := "--taken=".toList ++ t

/-- A command line that asks for a name that is not taken. Behind `--` the raw identifier may look
like an option. -/
def freeArguments (raw : Text) (taken : List Text) : List Text :=
  "next".toList :: (taken.map takenArgument ++ ["--".toList, raw])

theorem read_takenArgument (t : Text) :
    Subcommand.free.level.read (takenArgument t) = .flag .taken (some t) := rfl

theorem step_takenArgument {p : Progress} (hp : p.pending = none) (he : p.escaped = false)
    (t : Text) :
    p.step Subcommand.free.level (takenArgument t) = .ok { p with taken := p.taken ++ [t] } := by
  simp [Progress.step, he, hp, read_takenArgument, Progress.assign]

/-- Flags with taken texts add the texts in order. -/
theorem foldlM_takenArgument {p : Progress} (hp : p.pending = none) (he : p.escaped = false)
    (taken rest : List Text) :
    (taken.map takenArgument ++ rest).foldlM (Progress.step Subcommand.free.level) p =
      rest.foldlM (Progress.step Subcommand.free.level) { p with taken := p.taken ++ taken } := by
  induction taken generalizing p with
  | nil => simp
  | cons t taken ih =>
    rw [List.map_cons, List.cons_append, List.foldlM_cons, step_takenArgument hp he]
    have hnext := ih (p := { p with taken := p.taken ++ [t] }) hp he
    rw [List.append_assoc] at hnext
    exact hnext

/-- Such a command line asks for the raw identifier and the taken names in it. -/
theorem read_freeArguments (environment : Option Text) (raw : Text) (taken : List Text) :
    read environment (freeArguments raw taken) =
      .ok ⟨environment.getD defaultExtension, .free raw taken⟩ := by
  have htop : read environment (freeArguments raw taken) =
      readSubcommand (environment.getD defaultExtension) .free
        (taken.map takenArgument ++ ["--".toList, raw]) := rfl
  rw [htop, readSubcommand, foldlM_takenArgument rfl rfl]
  rfl

end CommandLine

/-- A scope that is asked for the names of raw identifiers gives names that are printed apart. The
program prints a name that is not taken, unless the raw identifier is taken and has no
variations. -/
theorem names_apart :
    (∀ raws, Scope.NamesApart raws (Scope.empty.giveAll (Scope.namesOfRaws raws)).1) ∧
      ∀ raw taken,
        (¬ CommandLine.IsStuck raw taken → CommandLine.nextFree raw taken ∉ taken) ∧
        (CommandLine.nextFree raw taken = raw ++ " is taken and has no variations".toList ↔
          CommandLine.IsStuck raw taken) ∧
        (∀ environment arguments extension,
          CommandLine.read environment arguments = .ok ⟨extension, .free raw taken⟩ →
          CommandLine.run environment arguments =
            .answered (CommandLine.nextFree raw taken ++ ['\n'])) ∧
        ∀ environment,
          CommandLine.run environment (CommandLine.freeArguments raw taken) =
            .answered (CommandLine.nextFree raw taken ++ ['\n']) := by
  have hrun : ∀ raw taken environment arguments extension,
      CommandLine.read environment arguments = .ok ⟨extension, .free raw taken⟩ →
      CommandLine.run environment arguments =
        .answered (CommandLine.nextFree raw taken ++ ['\n']) := by
    intro raw taken environment arguments extension h
    rw [CommandLine.run, h]
    rfl
  refine ⟨Scope.namesApart_giveAll, fun raw taken => ⟨CommandLine.nextFree_notMem,
    CommandLine.nextFree_eq_remark_iff raw taken, hrun raw taken, fun environment => ?_⟩⟩
  exact hrun _ _ _ _ _ (CommandLine.read_freeArguments environment raw taken)

/-- The counter goes into the last token, in front of the hole. -/
example : CommandLine.nextFree "x_".toList ["x_".toList, "x₁_".toList] = "x₂_".toList := by cbv

end MixfixNames
