/-
Texts in lines: lists whose items may end a line, and where a position
of such a text stands, as a line number and a column.

# The rule

A `Rule` says which items break a line and which two neighbours break it
together (a carriage return with the line feed after it). The second of
such a pair breaks a line on its own, and never opens a pair.

# Positions

`lineAt` counts the lines ended before a position, `lineStart` is the
other way round, and the two are adjoint (`le_lineAt`). A column counts
in the units of an item weight, and so does `offset`, the units before
a position; `itemAt` goes back, to the item a unit lies in (`le_itemAt`,
adjoint again). `locate` reads a line and a column; a position that does
not split a pair is found again (`locate_lineAt`).

`advance` walks a line and a column over a piece of text, and arrives
where `lineAt` and `colAt` say (`advance_take`).
-/
import Mathlib.Data.List.Basic
import Mathlib.Data.Nat.Basic
import Mathlib.Order.Basic
import Mathlib.Tactic.SplitIfs

namespace Lines

/-- Which items break a line, alone or with the next one. -/
structure Rule (α : Type*) where
  breaks : α → Bool
  /-- The two break a line together. -/
  pair : α → α → Bool
  breaks_snd : ∀ {a b}, pair a b = true → breaks b = true
  pair_snd : ∀ {a b} (c), pair a b = true → pair b c = false

variable {α : Type*}

namespace Rule

/-- The item ends its line, before this next item. -/
def ends (r : Rule α) (c : α) (next : Option α) : Bool :=
  r.breaks c && !next.any (r.pair c)

/-- A break begins at the item. -/
def begins (r : Rule α) (c : α) (next : Option α) : Bool :=
  r.breaks c || next.any (r.pair c)

/-- A pair lies across the seam between these two ends. -/
def joins (r : Rule α) (last next : Option α) : Bool :=
  last.any fun a => next.any (r.pair a)

end Rule

variable (r : Rule α) (w : α → Nat)

-- == positions

/-- The lines ended before item `p`. -/
def lineAt : List α → Nat → Nat
  | [], _ => 0
  | _ :: _, 0 => 0
  | c :: rest, p + 1 =>
      (if r.ends c rest.head? then 1 else 0) + lineAt rest p

/-- The first item of line `l`, or the end of the text. -/
def lineStart : List α → Nat → Nat
  | [], _ => 0
  | _ :: _, 0 => 0
  | c :: rest, l + 1 =>
      lineStart rest (if r.ends c rest.head? then l else l + 1) + 1

/-- The end of line `l`, in front of its break. -/
def lineEnd : List α → Nat → Nat
  | [], _ => 0
  | c :: rest, 0 =>
      if r.begins c rest.head? then 0 else lineEnd rest 0 + 1
  | c :: rest, l + 1 =>
      lineEnd rest (if r.ends c rest.head? then l else l + 1) + 1

/-- How many lines there are; the last one has no break. -/
def lineCount (t : List α) : Nat := lineAt r t t.length + 1

/-- Position `p` splits a pair. -/
def splits (t : List α) (p : Nat) : Bool :=
  r.joins (t.take p).getLast? t[p]?

/-- The units of a text. -/
def width : List α → Nat
  | [] => 0
  | c :: rest => w c + width rest

/-- The units before item `p`. -/
def offset (t : List α) (p : Nat) : Nat := width w (t.take p)

/-- The item unit `b` lies in, or the end of the text. -/
def itemAt : List α → Nat → Nat
  | [], _ => 0
  | c :: rest, b => if b < w c then 0 else itemAt rest (b - w c) + 1

/-- The units between the start of its line and item `p`. -/
def colAt (t : List α) (p : Nat) : Nat :=
  offset w t p - offset w t (lineStart r t (lineAt r t p))

/-- The item a line and a column name: the column is cut at the line's
end, and a line past the last is the end of the text. -/
def locate (t : List α) (l c : Nat) : Nat :=
  if l < lineCount r t then
    itemAt w t
      (min (offset w t (lineStart r t l) + c)
        (offset w t (lineEnd r t l)))
  else t.length

/-- Walk a line and a column over a piece of text that this item
follows. -/
def advance : Nat × Nat → List α → Option α → Nat × Nat
  | pos, [], _ => pos
  | pos, c :: rest, next =>
      advance
        (if r.ends c (rest.head?.or next) then (pos.1 + 1, 0)
          else (pos.1, pos.2 + w c))
        rest next

variable {r w} {t : List α}

-- == the rule

attribute [grind =] lineAt lineStart lineEnd width itemAt advance

/-- The second of a pair ends the line. -/
theorem Rule.ends_snd {a b : α} (h : r.pair a b = true)
    (next : Option α) : r.ends b next = true := by
  unfold Rule.ends
  rw [r.breaks_snd h]
  cases next with
  | none => rfl
  | some c =>
      show (true && !r.pair b c) = true
      rw [r.pair_snd c h]
      rfl

variable {c d : α} {next : Option α} {p q l : Nat}

/-- A break ends the line at once, or it is the first of a pair. -/
theorem Rule.begins_cases (h : r.begins c next = true) :
    r.ends c next = true ∨
      (r.ends c next = false ∧ ∃ d, next = some d ∧ r.pair c d = true) := by
  unfold Rule.begins at h
  unfold Rule.ends
  cases next with
  | none =>
      left
      simpa using h
  | some d =>
      cases hp : r.pair c d with
      | false =>
          left
          simpa [hp] using h
      | true =>
          right
          exact ⟨by simp [hp], d, rfl, hp⟩

theorem Rule.begins_of_ends (h : r.ends c next = true) :
    r.begins c next = true := by
  unfold Rule.ends at h
  unfold Rule.begins
  simp only [Bool.and_eq_true] at h
  rw [h.1]
  rfl

/-- Where no pair is joined, an item ends its line when it breaks it. -/
theorem Rule.ends_of_not_joins (h : r.joins (some c) next = false) :
    r.ends c next = r.breaks c := by
  have h' : next.any (r.pair c) = false := h
  unfold Rule.ends
  rw [h', Bool.not_false, Bool.and_true]

theorem splits_succ (h : p < t.length) :
    splits r t (p + 1) = r.joins t[p]? t[p + 1]? := by
  unfold splits
  rw [List.getLast?_take, if_neg (Nat.succ_ne_zero p), Nat.add_sub_cancel,
    List.getElem?_eq_getElem h]
  rfl

-- == lines

@[simp] theorem lineAt_zero : lineAt r t 0 = 0 := by
  cases t <;> rfl

@[simp] theorem lineStart_zero : lineStart r t 0 = 0 := by
  cases t <;> rfl

theorem lineStart_le : ∀ (t : List α) (l : Nat),
    lineStart r t l ≤ t.length
  | [], _ => le_rfl
  | _ :: _, 0 => Nat.zero_le _
  | c :: rest, l + 1 => by
      have ih := lineStart_le rest (if r.ends c rest.head? then l else l + 1)
      simp only [lineStart, List.length_cons]
      omega

theorem lineEnd_le : ∀ (t : List α) (l : Nat),
    lineEnd r t l ≤ t.length
  | [], _ => le_rfl
  | c :: rest, 0 => by
      have ih := lineEnd_le rest 0
      simp only [lineEnd, List.length_cons]
      split_ifs <;> omega
  | c :: rest, l + 1 => by
      have ih := lineEnd_le rest (if r.ends c rest.head? then l else l + 1)
      simp only [lineEnd, List.length_cons]
      omega

/-- A position is on line `l` or a later one when it is not before that
line's start. -/
theorem le_lineAt : ∀ {t : List α} {l : Nat} (p : Nat),
    l ≤ lineAt r t t.length →
      (l ≤ lineAt r t p ↔ lineStart r t l ≤ p)
  | t, 0, p, _ => by simp
  | [], l + 1, _, h => by simp [lineAt] at h
  | c :: rest, l + 1, 0, _ => by simp [lineStart, lineAt]
  | c :: rest, l + 1, p + 1, h => by
      simp only [List.length_cons, lineAt, lineStart] at h ⊢
      cases hc : r.ends c rest.head? with
      | true =>
          rw [hc] at h
          simp only [if_true] at h ⊢
          have ih := le_lineAt (t := rest) (l := l) p (by omega)
          omega
      | false =>
          rw [hc] at h
          simp only [Bool.false_eq_true, if_false] at h ⊢
          have ih :=
            le_lineAt (t := rest) (l := l + 1) p (by omega)
          omega

theorem lineAt_mono (h : p ≤ q) : lineAt r t p ≤ lineAt r t q := by
  induction t generalizing p q with
  | nil => exact le_rfl
  | cons c rest ih =>
      cases p with
      | zero => simp
      | succ p =>
          cases q with
          | zero => cases h
          | succ q =>
              simp only [lineAt]
              have := ih (Nat.le_of_succ_le_succ h)
              omega

theorem lineAt_le (p : Nat) :
    lineAt r t p ≤ lineAt r t t.length := by
  rcases Nat.le_total p t.length with h | h
  · exact lineAt_mono h
  · have hcut : ∀ (t : List α) (p : Nat), t.length ≤ p →
        lineAt r t p = lineAt r t t.length := by
      intro t
      induction t with
      | nil =>
          intro p _
          rfl
      | cons c rest ih =>
          intro p hp
          cases p with
          | zero => cases hp
          | succ p =>
              have := ih p (Nat.le_of_succ_le_succ hp)
              simp only [List.length_cons, lineAt]
              omega
    exact (hcut t p h).le

theorem lineAt_lt (p : Nat) : lineAt r t p < lineCount r t :=
  Nat.lt_succ_of_le (lineAt_le p)

/-- After the last line comes the end of the text. -/
theorem lineStart_lineCount (t : List α) :
    lineStart r t (lineCount r t) = t.length := by
  induction t with
  | nil => rfl
  | cons c rest ih =>
      simp only [lineCount, List.length_cons, lineAt, lineStart] at ih ⊢
      split_ifs
      · rw [Nat.add_comm 1, ih]
      · rw [Nat.zero_add, ih]

/-- A position's line starts at or before it. -/
theorem lineStart_lineAt_le (p : Nat) :
    lineStart r t (lineAt r t p) ≤ p :=
  (le_lineAt p (lineAt_le p)).mp le_rfl

/-- The item in front of a line's start ends the line before. -/
theorem ends_of_lineStart : ∀ {t : List α} {l : Nat},
    0 < lineStart r t l → lineStart r t l < t.length →
      ∃ u c d v, t = u ++ c :: d :: v ∧ u.length + 1 = lineStart r t l ∧
        r.ends c (some d) = true
  | [], _, _, h => absurd h (Nat.not_lt_zero _)
  | _ :: _, 0, h, _ => absurd h (Nat.lt_irrefl 0)
  | c :: [], l + 1, _, h => by
      rw [lineStart, List.length_singleton] at h
      omega
  | c :: d :: rest, l + 1, _, h => by
      rw [lineStart, List.length_cons] at h
      by_cases hzero :
          0 < lineStart r (d :: rest)
            (if r.ends c (d :: rest).head? then l else l + 1)
      · obtain ⟨u, c', d', v, ht, hlen, hends⟩ :=
          ends_of_lineStart hzero (Nat.lt_of_succ_lt_succ h)
        refine ⟨c :: u, c', d', v, ?_, ?_, hends⟩
        · rw [ht, List.cons_append]
        · rw [lineStart, List.length_cons, hlen]
      · refine ⟨[], c, d, rest, rfl, ?_, ?_⟩
        · rw [lineStart, Nat.eq_zero_of_not_pos hzero]
          rfl
        · by_contra hends
          refine hzero ?_
          rw [List.head?_cons, if_neg hends, lineStart]
          exact Nat.succ_pos _

theorem lineStart_mono {l' : Nat} (h : l ≤ l') :
    lineStart r t l ≤ lineStart r t l' := by
  induction t generalizing l l' with
  | nil => exact le_rfl
  | cons c rest ih =>
      cases l with
      | zero => simp
      | succ l =>
          cases l' with
          | zero => cases h
          | succ l' =>
              simp only [lineStart]
              split_ifs
              · have := ih (Nat.le_of_succ_le_succ h)
                omega
              · have := ih h
                omega

/-- The end of a line is on that line. -/
theorem lineAt_lineEnd : ∀ {t : List α} {l : Nat},
    l < lineCount r t → lineAt r t (lineEnd r t l) = l
  | [], l, h => by
      simp only [lineCount, lineAt] at h
      simp only [lineAt]
      omega
  | c :: rest, 0, _ => by
      simp only [lineEnd]
      cases hb : r.begins c rest.head? with
      | true => simp
      | false =>
          have hne : r.ends c rest.head? = false := by
            cases he : r.ends c rest.head? with
            | false => rfl
            | true => rw [Rule.begins_of_ends he] at hb; cases hb
          have ih := lineAt_lineEnd (t := rest) (l := 0)
            (Nat.succ_pos _)
          simp only [Bool.false_eq_true, if_false]
          simp only [lineAt, hne, Bool.false_eq_true, if_false]
          omega
  | c :: rest, l + 1, h => by
      simp only [lineCount, List.length_cons, lineAt] at h
      simp only [lineEnd]
      simp only [lineAt]
      cases he : r.ends c rest.head? with
      | true =>
          rw [he] at h
          simp only [if_true] at h ⊢
          have ih := lineAt_lineEnd (t := rest) (l := l)
            (show l < lineAt r rest rest.length + 1 by omega)
          omega
      | false =>
          rw [he] at h
          simp only [Bool.false_eq_true, if_false] at h ⊢
          have ih := lineAt_lineEnd (t := rest) (l := l + 1)
            (show l + 1 < lineAt r rest rest.length + 1 by omega)
          omega

theorem lineStart_le_lineEnd (h : l < lineCount r t) :
    lineStart r t l ≤ lineEnd r t l := by
  rw [← le_lineAt _ (Nat.le_of_lt_succ h)]
  exact (lineAt_lineEnd h).ge

/-- A line ends before the next one starts. -/
theorem lineEnd_le_lineStart (h : l + 1 < lineCount r t) :
    lineEnd r t l < lineStart r t (l + 1) := by
  have h' := le_lineAt (r := r) (t := t) (lineEnd r t l)
    (Nat.le_of_lt_succ h)
  rw [lineAt_lineEnd (Nat.lt_of_succ_lt h)] at h'
  omega

/-- A position that splits no pair is not past its line's end. -/
theorem le_lineEnd_lineAt : ∀ {t : List α} {p : Nat},
    p ≤ t.length → splits r t p = false →
      p ≤ lineEnd r t (lineAt r t p)
  | [], p, hp, _ => hp
  | c :: rest, 0, _, _ => Nat.zero_le _
  | c :: rest, p + 1, hp, hs => by
      have hs' : splits r rest p = false := by
        cases p with
        | zero => rfl
        | succ p =>
            cases rest with
            | nil => simp at hp
            | cons d rest =>
                have hcut : (c :: d :: rest).take (p + 2)
                    = c :: d :: rest.take p := rfl
                unfold splits at hs ⊢
                rw [hcut, List.getLast?_cons_cons] at hs
                exact hs
      have ih := le_lineEnd_lineAt (t := rest)
        (Nat.le_of_succ_le_succ hp) hs'
      cases he : r.ends c rest.head? with
      | true =>
          simp only [lineAt, he, if_true]
          rw [Nat.add_comm 1 (lineAt r rest p)]
          simp only [lineEnd, he, if_true]
          omega
      | false =>
          simp only [lineAt, he, Bool.false_eq_true, if_false, Nat.zero_add]
          cases hl : lineAt r rest p with
          | zero =>
              rw [hl] at ih
              cases hb : r.begins c rest.head? with
              | false =>
                  simp only [lineEnd, hb, Bool.false_eq_true, if_false]
                  omega
              | true =>
                  -- the pair that begins here is split, or is passed
                  exfalso
                  rcases r.begins_cases hb with h | ⟨_, d, hd, hpair⟩
                  · rw [he] at h
                    cases h
                  · cases rest with
                    | nil => cases hd
                    | cons e rest =>
                        injection hd with hd
                        subst hd
                        cases p with
                        | zero => simp [splits, Rule.joins, hpair] at hs
                        | succ p =>
                            simp only [lineAt, Rule.ends_snd hpair] at hl
                            simp at hl
          | succ l =>
              rw [hl] at ih
              simp only [lineEnd, he, Bool.false_eq_true, if_false]
              omega

/-- A position not past its line's end splits no pair. -/
theorem not_splits_of_le_lineEnd : ∀ {t : List α} {p : Nat},
    p ≤ lineEnd r t (lineAt r t p) → splits r t p = false
  | [], p, _ => by
      unfold splits
      rw [List.take_nil]
      rfl
  | c :: rest, 0, _ => rfl
  | c :: rest, 1, h => by
      rw [splits_succ (Nat.succ_pos _)]
      by_contra hs
      rw [Bool.not_eq_false] at hs
      cases rest with
      | nil => cases hs
      | cons d rest =>
          have hpair : r.pair c d = true := hs
          have hends : r.ends c (some d) = false := by
            simp [Rule.ends, hpair]
          have hbegins : r.begins c (some d) = true := by
            simp [Rule.begins, hpair]
          simp [lineAt, lineEnd, hends, hbegins] at h
  | c :: rest, p + 2, h => by
      have h' : p + 1 ≤ lineEnd r rest (lineAt r rest (p + 1)) := by
        cases he : r.ends c rest.head? with
        | true =>
            rw [lineAt, he, if_pos rfl, Nat.add_comm 1, lineEnd, he,
              if_pos rfl] at h
            omega
        | false =>
            rw [lineAt, he, if_neg (by simp), Nat.zero_add] at h
            cases hl : lineAt r rest (p + 1) with
            | zero =>
                rw [hl, lineEnd] at h
                split_ifs at h
                · omega
                · omega
            | succ l =>
                rw [hl, lineEnd, he, if_neg (by simp)] at h
                omega
      have ih := not_splits_of_le_lineEnd h'
      unfold splits at ih ⊢
      cases rest with
      | nil =>
          rw [List.take_succ_cons, List.getElem?_cons_succ]
          cases ([c] : List α).getLast? <;> rfl
      | cons d rest =>
          rw [List.take_succ_cons, List.take_succ_cons,
            List.getLast?_cons_cons, List.getElem?_cons_succ]
          exact ih

-- == units

@[simp] theorem width_append (xs ys : List α) :
    width w (xs ++ ys) = width w xs + width w ys := by
  induction xs with
  | nil => simp [width]
  | cons c xs ih =>
      simp only [List.cons_append, width, ih]
      omega

@[simp] theorem offset_zero : offset w t 0 = 0 := rfl

theorem offset_cons (c : α) (p : Nat) :
    offset w (c :: t) (p + 1) = w c + offset w t p := rfl

theorem offset_mono (h : p ≤ q) : offset w t p ≤ offset w t q := by
  induction t generalizing p q with
  | nil => simp [offset]
  | cons c rest ih =>
      cases p with
      | zero => exact Nat.zero_le _
      | succ p =>
          cases q with
          | zero => cases h
          | succ q =>
              have := ih (Nat.le_of_succ_le_succ h)
              simp only [offset_cons]
              omega

/-- The units between two positions. -/
theorem offset_take_drop (h : p ≤ q) :
    offset w t q
      = offset w t p + width w ((t.take q).drop p) := by
  unfold offset
  conv_lhs => rw [← List.take_append_drop p (t.take q)]
  rw [width_append, List.take_take, Nat.min_eq_left h]

/-- The items up to `i` end by unit `b` when `b` lies in item `i` or a
later one. -/
theorem le_itemAt : ∀ {t : List α} {i : Nat} (b : Nat),
    i ≤ t.length → (i ≤ itemAt w t b ↔ offset w t i ≤ b)
  | t, 0, b, _ => by simp
  | [], i + 1, b, h => by simp at h
  | c :: rest, i + 1, b, h => by
      have ih := le_itemAt (t := rest) (i := i) (b - w c)
        (Nat.le_of_succ_le_succ h)
      simp only [itemAt, offset_cons]
      split_ifs <;> omega

theorem itemAt_le : ∀ (t : List α) (b : Nat),
    itemAt w t b ≤ t.length
  | [], _ => le_rfl
  | c :: rest, b => by
      have ih := itemAt_le rest (b - w c)
      simp only [itemAt, List.length_cons]
      split_ifs <;> omega

theorem itemAt_mono {b b' : Nat} (h : b ≤ b') :
    itemAt w t b ≤ itemAt w t b' := by
  rw [le_itemAt _ (itemAt_le _ _)]
  exact ((le_itemAt b (itemAt_le t b)).mp le_rfl).trans h

variable (hw : ∀ c, 0 < w c)
include hw

/-- Every item takes room. -/
theorem offset_lt (h : p < q) (hq : q ≤ t.length) :
    offset w t p < offset w t q := by
  induction t generalizing p q with
  | nil =>
      simp only [List.length_nil] at hq
      omega
  | cons c rest ih =>
      cases q with
      | zero => cases h
      | succ q =>
          cases p with
          | zero =>
              have := hw c
              simp only [offset_zero, offset_cons]
              omega
          | succ p =>
              have := ih (Nat.lt_of_succ_lt_succ h)
                (Nat.le_of_succ_le_succ hq)
              simp only [offset_cons]
              omega

/-- The unit an item starts at lies in that item. -/
theorem itemAt_offset (hp : p ≤ t.length) : itemAt w t (offset w t p) = p := by
  apply Nat.le_antisymm
  · by_contra hlt
    have hlen := itemAt_le (w := w) t (offset w t p)
    have hle := (le_itemAt _ hlen).mp le_rfl
    have hback := offset_lt hw (Nat.lt_of_not_le hlt) hlen
    omega
  · rw [le_itemAt _ hp]

-- == line, column

/-- What a line and a column name is on that line, before its break. -/
theorem locate_mem (c : Nat) (hl : l < lineCount r t) :
    lineStart r t l ≤ locate r w t l c ∧
      locate r w t l c ≤ lineEnd r t l := by
  have hse := offset_mono (w := w) (t := t) (lineStart_le_lineEnd hl)
  unfold locate
  rw [if_pos hl]
  constructor
  · rw [le_itemAt _ (lineStart_le t l)]
    omega
  · calc itemAt w t _ ≤ itemAt w t (offset w t (lineEnd r t l)) :=
          itemAt_mono (Nat.min_le_right _ _)
      _ = lineEnd r t l := itemAt_offset hw (lineEnd_le t l)

omit hw in
theorem locate_le (l c : Nat) : locate r w t l c ≤ t.length := by
  unfold locate
  split_ifs
  · exact itemAt_le _ _
  · exact le_rfl

theorem lineAt_locate (c : Nat) (hl : l < lineCount r t) :
    lineAt r t (locate r w t l c) = l := by
  obtain ⟨h₁, h₂⟩ := locate_mem hw c hl
  apply Nat.le_antisymm
  · calc lineAt r t (locate r w t l c)
        ≤ lineAt r t (lineEnd r t l) := lineAt_mono h₂
      _ = l := lineAt_lineEnd hl
  · rwa [le_lineAt _ (Nat.le_of_lt_succ hl)]

/-- A column past the end of the line is the end of the line. -/
theorem locate_eq_lineEnd {c : Nat} (hl : l < lineCount r t)
    (hc : offset w t (lineEnd r t l) ≤ offset w t (lineStart r t l) + c) :
    locate r w t l c = lineEnd r t l := by
  unfold locate
  rw [if_pos hl, Nat.min_eq_right hc]
  exact itemAt_offset hw (lineEnd_le t l)

/-- A position that splits no pair is found by its line and column. -/
theorem locate_lineAt (hp : p ≤ t.length) (hs : splits r t p = false) :
    locate r w t (lineAt r t p) (colAt r w t p) = p := by
  have hstart := offset_mono (w := w) (t := t)
    (lineStart_lineAt_le (r := r) (t := t) p)
  have hend := offset_mono (w := w) (t := t) (le_lineEnd_lineAt hp hs)
  unfold locate colAt
  rw [if_pos (lineAt_lt p), Nat.add_sub_cancel' hstart, Nat.min_eq_left hend]
  exact itemAt_offset hw hp

/-- What a line and a column name splits no pair. -/
theorem not_splits_locate (l c : Nat) :
    splits r t (locate r w t l c) = false := by
  by_cases hl : l < lineCount r t
  · apply not_splits_of_le_lineEnd
    rw [lineAt_locate hw c hl]
    exact (locate_mem hw c hl).2
  · unfold locate splits
    rw [if_neg hl, List.getElem?_eq_none le_rfl]
    cases (t.take t.length).getLast? <;> rfl

omit hw in
/-- A smaller column of its line names an earlier item. -/
theorem locate_lt {c : Nat} (hp : p ≤ t.length) (hc : c < colAt r w t p) :
    locate r w t (lineAt r t p) c < p := by
  unfold colAt at hc
  unfold locate
  rw [if_pos (lineAt_lt p)]
  by_contra hge
  rw [Nat.not_lt, le_itemAt _ hp] at hge
  omega

/-- Later lines and columns name later items. -/
theorem locate_mono {c l' c' : Nat} (h : l < l' ∨ l = l' ∧ c ≤ c') :
    locate r w t l c ≤ locate r w t l' c' := by
  by_cases hl' : l' < lineCount r t
  · rcases h with hlt | ⟨rfl, hc⟩
    · have h₁ := (locate_mem (w := w) hw c (hlt.trans hl')).2
      have h₂ := (locate_mem (w := w) hw c' hl').1
      have h₃ := lineEnd_le_lineStart (r := r) (t := t) (l := l)
        (Nat.lt_of_le_of_lt hlt hl')
      have h₄ := lineStart_mono (r := r) (t := t)
        (show l + 1 ≤ l' from hlt)
      omega
    · unfold locate
      rw [if_pos hl', if_pos hl']
      exact itemAt_mono (by omega)
  · have hlast : locate r w t l' c' = t.length := by
      unfold locate
      rw [if_neg hl']
    rw [hlast]
    exact locate_le l c

omit hw

-- == walking

/-- On line zero the column is everything so far. -/
theorem colAt_of_lineAt_zero (h : lineAt r t p = 0) :
    colAt r w t p = offset w t p := by
  unfold colAt
  rw [h]
  simp

private theorem lineAt_cons_ends (p : Nat) (he : r.ends d t.head? = true) :
    lineAt r (d :: t) (p + 1) = lineAt r t p + 1 := by
  simp only [lineAt, he, if_true]
  exact Nat.add_comm _ _

private theorem lineAt_cons_stays (p : Nat) (he : r.ends d t.head? = false) :
    lineAt r (d :: t) (p + 1) = lineAt r t p := by
  simp only [lineAt, he, Bool.false_eq_true, if_false, Nat.zero_add]

private theorem colAt_cons_ends (p : Nat) (he : r.ends d t.head? = true) :
    colAt r w (d :: t) (p + 1) = colAt r w t p := by
  unfold colAt
  rw [lineAt_cons_ends p he]
  simp only [lineStart, he, if_true]
  rw [offset_cons, offset_cons]
  omega

private theorem colAt_cons_stays (p : Nat) (he : r.ends d t.head? = false) :
    colAt r w (d :: t) (p + 1)
      = if lineAt r t p = 0 then w d + offset w t p
        else colAt r w t p := by
  unfold colAt
  rw [lineAt_cons_stays p he, offset_cons]
  split_ifs with h0
  · rw [h0]
    simp
  · obtain ⟨l', hl'⟩ := Nat.exists_eq_add_one_of_ne_zero h0
    rw [hl']
    simp only [lineStart, he, Bool.false_eq_true, if_false]
    rw [offset_cons]
    omega

/-- The item after a cut of the text, seen from the start. -/
theorem head?_take_or (t : List α) (p : Nat) :
    (t.take p).head?.or t[p]? = t.head? := by
  cases t with
  | nil => simp
  | cons d rest => cases p <;> rfl

/-- Walking the text before a position ends at its line and column. -/
theorem advance_take (l c : Nat) : ∀ {t : List α} {p : Nat},
    p ≤ t.length →
      advance r w (l, c) (t.take p) t[p]?
        = (l + lineAt r t p,
            if lineAt r t p = 0 then c + offset w t p
            else colAt r w t p) := by
  intro t
  induction t generalizing l c with
  | nil =>
      intro p hp
      obtain rfl : p = 0 := by simpa using hp
      rfl
  | cons d rest ih =>
      intro p hp
      cases p with
      | zero => simp [advance]
      | succ p =>
          have hp' := Nat.le_of_succ_le_succ hp
          rw [List.take_succ_cons, List.getElem?_cons_succ, advance,
            head?_take_or]
          by_cases he : r.ends d rest.head? = true
          · rw [if_pos he, ih _ _ hp', lineAt_cons_ends p he,
              colAt_cons_ends p he, if_neg (Nat.succ_ne_zero _)]
            refine Prod.ext (by simp only []; omega) ?_
            show (if _ then 0 + _ else _) = _
            split_ifs with h0
            · rw [colAt_of_lineAt_zero h0, Nat.zero_add]
            · rfl
          · rw [Bool.not_eq_true] at he
            rw [if_neg (by simp [he]), ih _ _ hp', lineAt_cons_stays p he,
              colAt_cons_stays p he, offset_cons]
            refine Prod.ext rfl ?_
            show (if _ then c + w d + _ else _) = _
            split_ifs with h0
            · exact Nat.add_assoc _ _ _
            · rfl

/-- Two rules that end the lines of a piece alike walk it alike. -/
theorem advance_congr {r' : Rule α} {xs : List α} {next' : Option α}
    (pos : Nat × Nat)
    (h : ∀ i c, xs[i]? = some c →
      r.ends c (xs[i + 1]?.or next) = r'.ends c (xs[i + 1]?.or next')) :
    advance r w pos xs next = advance r' w pos xs next' := by
  induction xs generalizing pos with
  | nil => rfl
  | cons c xs ih =>
      have hc := h 0 c rfl
      rw [List.getElem?_cons_succ, ← List.head?_eq_getElem?] at hc
      rw [advance, advance, hc]
      exact ih _ fun i d hd => h (i + 1) d hd

/-- A rule that ends lines wherever another does counts at least as many,
and counts as many only if it ends them nowhere else. -/
theorem advance_le {r' : Rule α} {xs : List α} {next next' : Option α}
    {pos pos' : Nat × Nat} (hpos : pos.1 ≤ pos'.1)
    (h : ∀ i c, xs[i]? = some c →
      r.ends c (xs[i + 1]?.or next) = true →
        r'.ends c (xs[i + 1]?.or next') = true) :
    (advance r w pos xs next).1 ≤ (advance r' w pos' xs next').1 ∧
      ((advance r w pos xs next).1 = (advance r' w pos' xs next').1 →
        pos.1 = pos'.1 ∧ ∀ i c, xs[i]? = some c →
          r.ends c (xs[i + 1]?.or next)
            = r'.ends c (xs[i + 1]?.or next')) := by
  induction xs generalizing pos pos' with
  | nil => exact ⟨hpos, fun heq => ⟨heq, fun i c hc => by simp at hc⟩⟩
  | cons c xs ih =>
      have hc := h 0 c rfl
      rw [List.getElem?_cons_succ, ← List.head?_eq_getElem?] at hc
      rw [advance, advance]
      have hstep : ∀ {n n' : Nat × Nat}, n.1 ≤ n'.1 →
          (n.1 = n'.1 → pos.1 = pos'.1 ∧ r.ends c (xs.head?.or next)
            = r'.ends c (xs.head?.or next')) →
          (advance r w n xs next).1 ≤ (advance r' w n' xs next').1 ∧
            ((advance r w n xs next).1 = (advance r' w n' xs next').1 →
              pos.1 = pos'.1 ∧ ∀ i d, (c :: xs)[i]? = some d →
                r.ends d ((c :: xs)[i + 1]?.or next)
                  = r'.ends d ((c :: xs)[i + 1]?.or next')) := by
        intro n n' hn heq
        obtain ⟨hle, hrest⟩ :=
          ih hn fun i d hd => h (i + 1) d hd
        refine ⟨hle, fun hsame => ?_⟩
        obtain ⟨hn', halike⟩ := hrest hsame
        obtain ⟨hpos', hends⟩ := heq hn'
        refine ⟨hpos', fun i d hd => ?_⟩
        cases i with
        | zero =>
            injection hd with hd
            subst hd
            rw [List.getElem?_cons_succ, ← List.head?_eq_getElem?]
            exact hends
        | succ i => exact halike i d hd
      cases he : r.ends c (xs.head?.or next) with
      | true =>
          rw [hc he, if_pos rfl, if_pos rfl]
          exact hstep (Nat.succ_le_succ hpos)
            fun hn => ⟨Nat.succ.inj hn, by rw [he, hc he]⟩
      | false =>
          cases he' : r'.ends c (xs.head?.or next') with
          | true =>
              rw [if_neg (by simp), if_pos rfl]
              exact hstep (Nat.le_succ_of_le hpos)
                fun hn => absurd hn (by simp only []; omega)
          | false =>
              rw [if_neg (by simp), if_neg (by simp)]
              exact hstep hpos fun hn => ⟨hn, by rw [he, he']⟩

/-- What follows a piece does not matter if it joins no pair. -/
theorem advance_follower {xs : List α} {next' : Option α} (pos : Nat × Nat)
    (h : r.joins xs.getLast? next = false)
    (h' : r.joins xs.getLast? next' = false) :
    advance r w pos xs next = advance r w pos xs next' := by
  apply advance_congr
  intro i c hc
  have hlt := (List.getElem?_eq_some_iff.mp hc).1
  rcases Nat.lt_or_ge (i + 1) xs.length with hi | hi
  · rw [List.getElem?_eq_getElem hi]
    rfl
  · have hlast : xs.getLast? = some c := by
      rw [List.getLast?_eq_getElem?, ← hc]
      congr 1
      omega
    rw [hlast] at h h'
    rw [List.getElem?_eq_none hi, Option.none_or, Option.none_or,
      Rule.ends_of_not_joins h, Rule.ends_of_not_joins h']

theorem advance_position (hp : p ≤ t.length) :
    advance r w (0, 0) (t.take p) t[p]?
      = (lineAt r t p, colAt r w t p) := by
  rw [advance_take 0 0 hp]
  refine Prod.ext (by simp) ?_
  show (if lineAt r t p = 0 then 0 + offset w t p else _) = _
  split_ifs with h
  · rw [colAt_of_lineAt_zero h, Nat.zero_add]
  · rfl

/-- A walk over two pieces, the first followed by the second. -/
theorem advance_append (pos : Nat × Nat) (xs ys : List α)
    (next : Option α) :
    advance r w pos (xs ++ ys) next
      = advance r w (advance r w pos xs (ys.head?.or next)) ys next := by
  induction xs generalizing pos with
  | nil => rfl
  | cons c xs ih =>
      have hhead : ((xs ++ ys).head?.or next)
          = (xs.head?.or (ys.head?.or next)) := by
        cases xs <;> rfl
      rw [List.cons_append, advance, ih, hhead, advance]

end Lines
