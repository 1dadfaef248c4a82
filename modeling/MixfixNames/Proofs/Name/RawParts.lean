/-
# Raw Identifiers and Their Parts

Which sequences of parts raw identifiers denote. Between two tokens there is always a hole, since
only an underscore ends a token, and no token is empty or holds an underscore; the lone hole is
missing, since `_` by itself is the wildcard. The main statement, `ofRaw_bijective`, says that
reading is a bijection onto these sequences and that writing is its inverse.
-/
import Mathlib.Data.List.Chain
import MixfixNames.Name.Basic
import MixfixNames.Sequence

namespace MixfixNames.Part

/-! ## Readable parts -/

/-- Two parts that may stand next to each other: one of them is a hole. -/
def Separated (p q : Part) : Prop := p.isHole = true ∨ q.isHole = true

instance : DecidableRel Separated := fun _ _ => inferInstanceAs (Decidable (_ ∨ _))

/-- The parts that some raw identifier denotes: the wildcard token, or tokens that are neither
empty nor hold an underscore, no two of them adjacent, but not the lone hole. -/
def IsReadable (ps : List Part) : Prop :=
  ps = [token [underscore]] ∨
    (∀ t ∈ texts ps, t ≠ [] ∧ underscore ∉ t) ∧ ps.IsChain Separated ∧ ps ≠ [hole]

instance : DecidablePred IsReadable := fun _ => inferInstanceAs (Decidable (_ ∨ _ ∧ _ ∧ _))

/-- Whether tokens are separated depends on where the holes are alone. -/
theorem isChain_separated_iff (ps : List Part) :
    ps.IsChain Separated ↔ (ps.map isHole).IsChain fun p q => p = true ∨ q = true := by
  rw [List.isChain_map]
  rfl

/-! ## The parts of spans -/

/-- Between two spans there is a hole. -/
theorem ofSpans_cons_cons (span next : Text) (rest : List Text) :
    ofSpans (span :: next :: rest) = ofSpan span ++ hole :: ofSpans (next :: rest) := by
  simp [ofSpans]

/-- The tokens of spans are the spans that are not empty. -/
theorem texts_ofSpans (spans : List Text) :
    texts (ofSpans spans) = spans.filter (fun span => span ≠ []) := by
  have hspan : ∀ span : Text, texts (ofSpan span) = [span].filter (fun span => span ≠ []) := by
    intro span
    by_cases h : span = [] <;> simp [ofSpan, texts, text?, h]
  induction spans with
  | nil => rfl
  | cons span rest ih =>
    cases rest with
    | nil => rw [ofSpans, List.flatMap_nil, List.append_nil, hspan]
    | cons next rest =>
      have hhole : texts (hole :: ofSpans (next :: rest)) = texts (ofSpans (next :: rest)) := rfl
      rw [ofSpans_cons_cons, texts, List.filterMap_append, ← texts, ← texts, hhole, ih, hspan,
        ← List.filter_append, List.singleton_append]

/-- No two tokens of spans are adjacent. -/
theorem isChain_ofSpans (spans : List Text) : (ofSpans spans).IsChain Separated := by
  induction spans with
  | nil => exact List.isChain_nil
  | cons span rest ih =>
    cases rest with
    | nil => by_cases h : span = [] <;> simp [ofSpans, ofSpan, h]
    | cons next rest =>
      rw [ofSpans_cons_cons]
      have hcons : (hole :: ofSpans (next :: rest)).IsChain Separated :=
        ih.cons fun _ _ => Or.inl rfl
      by_cases h : span = []
      · rw [ofSpan, if_pos h]
        exact hcons
      · rw [ofSpan, if_neg h]
        refine hcons.cons ?_
        intro p hp
        obtain rfl : hole = p := by simpa using hp
        exact Or.inr rfl

/-- The parts of a raw identifier can be read from it. -/
theorem isReadable_ofRaw (raw : Text) : IsReadable (ofRaw raw) := by
  by_cases h : raw = [underscore]
  · left
    rw [h, ofRaw_underscore]
  · right
    have hr : renderAll (ofRaw raw) = raw := renderAll_ofRaw raw
    rw [ofRaw, if_neg h] at hr ⊢
    refine ⟨?_, isChain_ofSpans _, ?_⟩
    · intro t ht
      rw [texts_ofSpans, List.mem_filter] at ht
      exact ⟨by simpa using ht.2, Sequence.not_mem_of_mem_splitOn ht.1⟩
    · intro he
      rw [he] at hr
      exact h hr.symm

/-! ## The spans of parts -/

/-- What is written between each two holes of a sequence of parts. -/
def spans : List Part → List Text
  | [] => [[]]
  | hole :: ps => [] :: spans ps
  | token t :: ps => (spans ps).modifyHead (t ++ ·)

theorem spans_ne_nil (ps : List Part) : spans ps ≠ [] := by
  induction ps with
  | nil => simp [spans]
  | cons p ps ih => cases p <;> simp [spans, ih]

/-- Parts are written as their spans with an underscore between each two. -/
theorem intercalate_spans (ps : List Part) :
    [underscore].intercalate (spans ps) = renderAll ps := by
  induction ps with
  | nil => rfl
  | cons p ps ih =>
    obtain ⟨span, rest, hs⟩ := List.exists_cons_of_ne_nil (spans_ne_nil ps)
    rw [hs] at ih
    cases p with
    | hole =>
      rw [spans, hs, List.intercalate_cons_cons, ih]
      rfl
    | token t =>
      have ht : renderAll (token t :: ps) = t ++ renderAll ps := rfl
      rw [spans, hs, List.modifyHead_cons, ht, ← ih]
      cases rest <;> simp [List.intercalate_cons_cons]

/-- Tokens without underscores have spans without underscores. -/
theorem not_mem_of_mem_spans {ps : List Part} (h : ∀ t ∈ texts ps, underscore ∉ t) :
    ∀ span ∈ spans ps, underscore ∉ span := by
  induction ps with
  | nil => simp [spans]
  | cons p ps ih =>
    cases p with
    | hole =>
      intro span hm
      rcases List.mem_cons.mp hm with rfl | hm
      · simp
      · exact ih h span hm
    | token t =>
      have ht : underscore ∉ t := h t List.mem_cons_self
      have ih := ih fun u hu => h u (List.mem_cons_of_mem t hu)
      obtain ⟨first, rest, hs⟩ := List.exists_cons_of_ne_nil (spans_ne_nil ps)
      intro span hm
      rw [spans, hs, List.modifyHead_cons] at hm
      rw [hs] at ih
      rcases List.mem_cons.mp hm with rfl | hm
      · rw [List.mem_append, not_or]
        exact ⟨ht, ih first List.mem_cons_self⟩
      · exact ih span (List.mem_cons_of_mem first hm)

/-- Parts are the parts of their spans, if no token is empty and no two are adjacent. -/
theorem ofSpans_spans {ps : List Part} (ht : ∀ t ∈ texts ps, t ≠ [])
    (hc : ps.IsChain Separated) : ofSpans (spans ps) = ps := by
  induction ps with
  | nil => rfl
  | cons p ps ih =>
    cases p with
    | hole =>
      obtain ⟨span, rest, hs⟩ := List.exists_cons_of_ne_nil (spans_ne_nil ps)
      have ih := ih ht hc.tail
      rw [hs] at ih
      rw [spans, hs, ofSpans_cons_cons, ih]
      rfl
    | token t =>
      have hne : t ≠ [] := ht t List.mem_cons_self
      have ih := ih (fun u hu => ht u (List.mem_cons_of_mem t hu)) hc.tail
      cases ps with
      | nil => simp [spans, ofSpans, ofSpan, hne]
      | cons q ps =>
        -- behind a token stands a hole, so the span of the token ends with the token
        cases q with
        | token u => simp [Separated, isHole] at hc
        | hole =>
          rw [spans] at ih
          rw [spans, spans, List.modifyHead_cons, List.append_nil, ofSpans, ofSpan, if_neg hne]
          rw [ofSpans, ofSpan, if_pos rfl, List.nil_append] at ih
          rw [ih]
          rfl

/-! ## Reading what was written -/

/-- Readable parts are read back from what is written of them. -/
theorem ofRaw_renderAll {ps : List Part} (h : IsReadable ps) : ofRaw (renderAll ps) = ps := by
  rcases h with rfl | ⟨ht, hc, hne⟩
  · rfl
  · have hs : (renderAll ps).splitOn underscore = spans ps := by
      rw [← intercalate_spans]
      exact List.splitOn_intercalate underscore
        (not_mem_of_mem_spans fun t hm => (ht t hm).2) (spans_ne_nil ps)
    have hback : ofSpans (spans ps) = ps := ofSpans_spans (fun t hm => (ht t hm).1) hc
    rw [ofRaw, if_neg, hs, hback]
    intro he
    rw [he] at hs
    apply hne
    rw [← hback, ← hs]
    rfl

/-- Reading raw identifiers is a bijection onto the readable sequences of parts, with writing as
its inverse. In particular raw identifiers denote the same name only if they are equal. -/
theorem ofRaw_bijective :
    (∀ raw, renderAll (ofRaw raw) = raw) ∧
      (∀ ps, (∃ raw, ofRaw raw = ps) ↔ IsReadable ps) ∧
      (∀ ps, ofRaw (renderAll ps) = ps ↔ IsReadable ps) ∧
      ∀ r r' s t, (Name.ofRaw r s == Name.ofRaw r' t) = true ↔ s = t := by
  refine ⟨renderAll_ofRaw, fun ps => ⟨?_, fun h => ⟨renderAll ps, ofRaw_renderAll h⟩⟩,
    fun ps => ⟨fun h => ?_, ofRaw_renderAll⟩, fun r r' s t => Name.ofRaw_beq_iff⟩
  · rintro ⟨raw, rfl⟩
    exact isReadable_ofRaw raw
  · rw [← h]
    exact isReadable_ofRaw (renderAll ps)

example : ¬ IsReadable [hole] ∧ ¬ IsReadable [token ['a'], token ['b']] := by decide

end MixfixNames.Part
