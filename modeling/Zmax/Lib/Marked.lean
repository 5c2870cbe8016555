/-
Texts with marked parts, which may be nested.

`Stands ps off i inner` says that a part marked `i` with the content
`inner` stands in `ps` with `off` elements in front of it. `spans` lists
the places of all marked parts, each after those inside it: this is the
order in which a writer that goes through the text once comes to their
ends. What it lists is what stands in the text (`mem_spans`), each with
its content between its ends (`Stands.content`) and inside the part it is
nested in (`Stands.trans`).
-/
import Mathlib.Data.List.Basic

namespace Marked

variable {ι α : Type}

/-- A plain part of a text, or a marked one. -/
inductive Piece (ι α : Type) where
  | plain (xs : List α)
  | mark (i : ι) (inner : List (Piece ι α))

mutual

/-- The text without the marks. -/
def Piece.content : Piece ι α → List α
  | .plain xs => xs
  | .mark _ inner => content inner

def content : List (Piece ι α) → List α
  | [] => []
  | p :: ps => p.content ++ content ps

end

mutual

/-- The places of the marked parts of a piece that starts at `pos`. -/
def Piece.spans (pos : Nat) : Piece ι α → List (ι × Nat × Nat)
  | .plain _ => []
  | .mark i inner =>
      spans pos inner ++ [(i, pos, pos + (content inner).length)]

def spans (pos : Nat) : List (Piece ι α) → List (ι × Nat × Nat)
  | [] => []
  | p :: ps => p.spans pos ++ spans (pos + p.content.length) ps

end

/-- The places of the parts with one mark. -/
def spansOf [DecidableEq ι] (pos : Nat) (ps : List (Piece ι α)) (i : ι) :
    List (Nat × Nat) :=
  ((spans pos ps).filter (·.1 = i)).map Prod.snd

mutual

/-- The marks, each before those inside it. -/
def Piece.marks : Piece ι α → List ι
  | .plain _ => []
  | .mark i inner => i :: marks inner

def marks : List (Piece ι α) → List ι
  | [] => []
  | p :: ps => p.marks ++ marks ps

end

/-- A marked part with this content, `off` elements into the text. -/
inductive Stands : List (Piece ι α) → Nat → ι → List (Piece ι α) → Prop
  | here (i : ι) (inner ps : List (Piece ι α)) :
      Stands (.mark i inner :: ps) 0 i inner
  | inside {inner : List (Piece ι α)} {off : Nat} {j : ι}
      {inner' : List (Piece ι α)} (i : ι) (ps : List (Piece ι α)) :
      Stands inner off j inner' → Stands (.mark i inner :: ps) off j inner'
  | later {ps : List (Piece ι α)} {off : Nat} {j : ι}
      {inner : List (Piece ι α)} (p : Piece ι α) :
      Stands ps off j inner →
      Stands (p :: ps) (p.content.length + off) j inner

variable {ps qs inner inner' : List (Piece ι α)} {p : Piece ι α}
  {i j : ι} {off off' pos : Nat}

-- == appending

attribute [grind =] Piece.content content Piece.spans spans marks

theorem content_append (ps qs : List (Piece ι α)) :
    content (ps ++ qs) = content ps ++ content qs := by
  induction ps with
  | nil => rfl
  | cons p ps ih =>
      rw [List.cons_append, content, content, ih, List.append_assoc]

theorem spans_append (pos : Nat) (ps qs : List (Piece ι α)) :
    spans pos (ps ++ qs)
      = spans pos ps ++ spans (pos + (content ps).length) qs := by
  induction ps generalizing pos with
  | nil => rfl
  | cons p ps ih =>
      rw [List.cons_append, spans, spans, ih, content, List.append_assoc,
        List.length_append, Nat.add_assoc]

theorem spansOf_append [DecidableEq ι] (pos : Nat)
    (ps qs : List (Piece ι α)) (i : ι) :
    spansOf pos (ps ++ qs) i
      = spansOf pos ps i ++ spansOf (pos + (content ps).length) qs i := by
  unfold spansOf
  rw [spans_append, List.filter_append, List.map_append]

theorem marks_append (ps qs : List (Piece ι α)) :
    marks (ps ++ qs) = marks ps ++ marks qs := by
  induction ps with
  | nil => rfl
  | cons p ps ih =>
      rw [List.cons_append, marks, marks, ih, List.append_assoc]

-- == standing

/-- What stands inside a part stands in the whole. -/
theorem Stands.trans (h : Stands ps off i inner)
    (h' : Stands inner off' j inner') : Stands ps (off + off') j inner' := by
  induction h with
  | here i inner ps =>
      rw [Nat.zero_add]
      exact .inside i ps h'
  | inside i ps _ ih => exact .inside i ps (ih h')
  | later p _ ih =>
      rw [Nat.add_assoc]
      exact .later p (ih h')

/-- The content of a part stands at its place. -/
theorem Stands.content (h : Stands ps off i inner) :
    ∃ before after, Marked.content ps = before ++ Marked.content inner ++ after
      ∧ before.length = off := by
  induction h with
  | here i inner ps => exact ⟨[], Marked.content ps, rfl, rfl⟩
  | inside i ps _ ih =>
      obtain ⟨before, after, hc, hlen⟩ := ih
      refine ⟨before, after ++ Marked.content ps, ?_, hlen⟩
      rw [Marked.content, Piece.content, hc, List.append_assoc]
  | later p _ ih =>
      obtain ⟨before, after, hc, hlen⟩ := ih
      refine ⟨p.content ++ before, after, ?_, ?_⟩
      · rw [Marked.content, hc, ← List.append_assoc, ← List.append_assoc]
      · rw [List.length_append, hlen]

/-- A part ends inside the text it stands in. -/
theorem Stands.length_le (h : Stands ps off i inner) :
    off + (Marked.content inner).length ≤ (Marked.content ps).length := by
  obtain ⟨before, after, hc, hlen⟩ := h.content
  rw [hc, List.length_append, List.length_append, hlen]
  exact Nat.le_add_right _ _

mutual

theorem mem_piece_spans (pos : Nat) :
    ∀ (p : Piece ι α) {i : ι} {a b : Nat},
      (i, a, b) ∈ p.spans pos ↔
      ∃ off inner, Stands [p] off i inner ∧ a = pos + off
        ∧ b = a + (content inner).length
  | .plain xs, i, a, b => by
      unfold Piece.spans
      refine ⟨nofun, ?_⟩
      rintro ⟨off, inner, h, -⟩
      cases h with
      | later _ h => cases h
  | .mark j inner, i, a, b => by
      unfold Piece.spans
      rw [List.mem_append, List.mem_singleton, mem_spans pos inner]
      constructor
      · rintro (⟨off, inner', h, ha, hb⟩ | heq)
        · exact ⟨off, inner', .inside j [] h, ha, hb⟩
        · injection heq with hi heq
          injection heq with ha hb
          subst hi ha hb
          exact ⟨0, inner, .here i inner [], rfl, rfl⟩
      · rintro ⟨off, inner', h, ha, hb⟩
        cases h with
        | here =>
            refine .inr ?_
            rw [hb, ha, Nat.add_zero]
        | inside _ _ h => exact .inl ⟨off, inner', h, ha, hb⟩
        | later _ h => cases h

/-- The spans are what stands in the text. -/
theorem mem_spans (pos : Nat) :
    ∀ (ps : List (Piece ι α)) {i : ι} {a b : Nat},
      (i, a, b) ∈ spans pos ps ↔
      ∃ off inner, Stands ps off i inner ∧ a = pos + off
        ∧ b = a + (content inner).length
  | [], i, a, b => by
      unfold spans
      refine ⟨nofun, ?_⟩
      rintro ⟨off, inner, h, -⟩
      cases h
  | p :: ps, i, a, b => by
      unfold spans
      rw [List.mem_append, mem_piece_spans pos p, mem_spans _ ps]
      constructor
      · rintro (⟨off, inner, h, ha, hb⟩ | ⟨off, inner, h, ha, hb⟩)
        · refine ⟨off, inner, ?_, ha, hb⟩
          cases h with
          | here i inner => exact .here i inner ps
          | inside j _ h => exact .inside j ps h
          | later _ h => cases h
        · exact ⟨p.content.length + off, inner, .later p h,
            by rw [ha, Nat.add_assoc], hb⟩
      · rintro ⟨off, inner, h, ha, hb⟩
        cases h with
        | here => exact .inl ⟨0, inner, .here i inner [], ha, hb⟩
        | inside j _ h => exact .inl ⟨off, inner, .inside j [] h, ha, hb⟩
        | later _ h =>
            exact .inr ⟨_, inner, h, by rw [ha, Nat.add_assoc], hb⟩

end

/-- The spans of a mark are the parts that have it. -/
theorem mem_spansOf [DecidableEq ι] {a b : Nat} :
    (a, b) ∈ spansOf pos ps i ↔
    ∃ off inner, Stands ps off i inner ∧ a = pos + off
      ∧ b = a + (content inner).length := by
  unfold spansOf
  rw [← mem_spans pos ps, List.mem_map]
  constructor
  · rintro ⟨⟨k, a', b'⟩, hmem, heq⟩
    obtain ⟨hmem, hk⟩ := List.mem_filter.mp hmem
    injection heq with ha hb
    subst ha hb
    exact of_decide_eq_true hk ▸ hmem
  · intro h
    exact ⟨_, List.mem_filter.mpr ⟨h, decide_eq_true rfl⟩, rfl⟩

/-- A mark that stands in the text is one of its marks. -/
theorem Stands.mem_marks (h : Stands ps off i inner) : i ∈ marks ps := by
  induction h with
  | here i inner ps => exact List.mem_cons_self
  | inside i ps _ ih =>
      exact List.mem_append_left _ (List.mem_cons_of_mem _ ih)
  | later p _ ih => exact List.mem_append_right _ ih

mutual

theorem stands_of_mem_piece :
    ∀ (p : Piece ι α) {i : ι}, i ∈ p.marks →
      ∃ off inner, Stands [p] off i inner
  | .plain xs, i, h => absurd h List.not_mem_nil
  | .mark j inner, i, h => by
      rcases List.mem_cons.mp h with rfl | h
      · exact ⟨0, inner, .here i inner []⟩
      · obtain ⟨off, inner', h⟩ := stands_of_mem inner h
        exact ⟨off, inner', .inside j [] h⟩

theorem stands_of_mem :
    ∀ (ps : List (Piece ι α)) {i : ι}, i ∈ marks ps →
      ∃ off inner, Stands ps off i inner
  | [], i, h => absurd h List.not_mem_nil
  | p :: ps, i, h => by
      rcases List.mem_append.mp h with h | h
      · obtain ⟨off, inner, h⟩ := stands_of_mem_piece p h
        refine ⟨off, inner, ?_⟩
        cases h with
        | here i inner => exact .here i inner ps
        | inside j _ h => exact .inside j ps h
        | later _ h => cases h
      · obtain ⟨off, inner, h⟩ := stands_of_mem ps h
        exact ⟨p.content.length + off, inner, .later p h⟩

end

/-- A mark has a span if and only if it is one of the marks. -/
theorem spansOf_ne_nil [DecidableEq ι] :
    spansOf pos ps i ≠ [] ↔ i ∈ marks ps := by
  constructor
  · intro h
    obtain ⟨⟨a, b⟩, hab⟩ := List.exists_mem_of_ne_nil _ h
    obtain ⟨off, inner, hs, -⟩ := mem_spansOf.mp hab
    exact hs.mem_marks
  · intro h
    obtain ⟨off, inner, hs⟩ := stands_of_mem ps h
    exact List.ne_nil_of_mem (mem_spansOf.mpr ⟨off, inner, hs, rfl, rfl⟩)

end Marked
