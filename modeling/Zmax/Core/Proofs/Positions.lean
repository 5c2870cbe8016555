/-
`update_positions` against `map_pos`, position by position.

# The chain of turns

The cursors of the walk form one chain from the start, whatever the
positions are: a turn goes to the next cursor (`Cursor.next`), and a
rewind always ends at the start of the chain, since it does not stop at
the first operation that contains the position (`rewind_eq`). So the
only thing the positions decide is where on the chain each of them is
moved: `place`. `updateLoop_eq` removes the bound on the turns and the
loops with it, and shows that nothing panics.

# Where the sweep strays

On its own a position is moved by the first cursor that covers it, its
`home`. In the sweep the walk may already stand past that cursor without
being past the position: behind an insert at the position itself.
`update_positions_iff` says when this shows: exactly when a position
follows a larger one whose home starts at it, and home and stray image
differ.
-/
import Mathlib.Data.List.Induction
import Mathlib.Logic.Relation
import Zmax.Core.Proofs.Builder
import Zmax.Core.Positions

namespace Zmax

open Script

namespace ChangeSet

variable {U : Unicode}

namespace Cursor

-- == one turn

/-- The positions the turn moves, among those not behind it. -/
def Covers (cur : Cursor) (pos : Nat) : Prop :=
  match cur.rest with
  | [] => cur.oldPos = pos
  | .retain len :: _ => pos < cur.oldPos + len
  | .delete len :: _ => pos < cur.oldPos + len
  | .insert _ :: .delete len :: _ => pos < cur.oldPos + len
  | .insert _ :: _ => cur.oldPos = pos

instance (cur : Cursor) (pos : Nat) : Decidable (cur.Covers pos) := by
  unfold Covers
  split <;> infer_instance

variable {cur cur' : Cursor} {pos : Nat}

/-- What the turn covers does not depend on the association. -/
theorem map_isSome {assoc : Assoc} :
    (cur.map U pos assoc).isSome ↔ cur.Covers pos := by
  unfold map Covers
  split <;> split_ifs <;> simp_all

/-- A turn takes operations off the rest and moves on by their lengths. -/
theorem next_spec (h : cur.next = some cur') :
    ∃ ops, cur.rest = ops ++ cur'.rest ∧ ops ≠ []
      ∧ cur'.index = cur.index + ops.length
      ∧ cur'.oldPos = cur.oldPos + oldLen ops
      ∧ cur'.newPos = cur.newPos + newLen ops := by
  unfold next at h
  split at h
  case h_1 => cases h
  case h_2 len rest heq =>
    injection h with h
    subst h
    exact ⟨[.retain len], by simp [heq]⟩
  case h_3 len rest heq =>
    injection h with h
    subst h
    exact ⟨[.delete len], by simp [heq]⟩
  case h_4 s len rest heq =>
    injection h with h
    subst h
    exact ⟨[.insert s, .delete len], by simp [heq]⟩
  case h_5 s rest _ heq =>
    injection h with h
    subst h
    exact ⟨[.insert s], by simp [heq]⟩

/-- Up to the next cursor the turn covers everything, and past it at
most the point of an insert. -/
theorem covers_next {cur cur' : Cursor} (h : cur.next = some cur')
    {pos : Nat} :
    (pos < cur'.oldPos → cur.oldPos ≤ pos → cur.Covers pos)
      ∧ (cur.Covers pos → pos < cur'.oldPos ∨
          (pos = cur.oldPos ∧ cur'.oldPos = cur.oldPos))
      ∧ (cur.oldPos ≤ pos → ¬ cur.Covers pos → cur'.oldPos ≤ pos) := by
  unfold next at h
  split at h
  case h_1 => cases h
  -- a span of the old text: covered up to its end
  case h_2 len rest heq =>
    injection h with h
    subst h
    unfold Covers
    simp only [heq]
    omega
  case h_3 len rest heq =>
    injection h with h
    subst h
    unfold Covers
    simp only [heq]
    omega
  case h_4 s len rest heq =>
    injection h with h
    subst h
    unfold Covers
    simp only [heq]
    omega
  -- an insert: only its own point
  case h_5 s rest hno heq =>
    injection h with h
    subst h
    unfold Covers
    rw [heq]
    split
    case h_4 _ len rest' heq' =>
      injection heq' with _ heq'
      exact (hno len rest' heq').elim
    case h_5 =>
      dsimp only
      omega
    all_goals next heq' => cases heq'

theorem length_next (h : cur.next = some cur') :
    cur'.rest.length < cur.rest.length := by
  obtain ⟨ops, hrest, hne, -⟩ := next_spec h
  have := List.length_pos_iff.mpr hne
  rw [hrest, List.length_append]
  omega

-- == the chain

/-- `b` comes on the chain at or after `a`. -/
abbrev Leads : Cursor → Cursor → Prop :=
  Relation.ReflTransGen fun a b => a.next = some b

/-- Along the chain the old position only grows. -/
theorem Leads.oldPos_le {a b : Cursor} (h : Leads a b) :
    a.oldPos ≤ b.oldPos := by
  induction h with
  | refl => exact Nat.le_refl _
  | tail _ hn ih =>
      obtain ⟨ops, -, -, -, hold, -⟩ := next_spec hn
      omega

/-- The first cursor from `cur` on that covers a position. -/
def seek (cur : Cursor) (pos : Nat) : Cursor :=
  if cur.Covers pos then cur
  else
    match _h : cur.next with
    | none => cur
    | some cur' => seek cur' pos
termination_by cur.rest.length
decreasing_by exact length_next _h

theorem seek_of_covers (h : cur.Covers pos) : cur.seek pos = cur := by
  rw [seek, if_pos h]

theorem seek_of_next (h : ¬ cur.Covers pos) (hn : cur.next = some cur') :
    cur.seek pos = cur'.seek pos := by
  rw [seek, if_neg h]
  split
  · next heq =>
      rw [hn] at heq
      cases heq
  · next cur'' heq =>
      rw [hn] at heq
      injection heq with heq
      rw [heq]

/-- A position that is not past the end is covered by a cursor ahead
that is not past the position. -/
theorem seek_spec {cur : Cursor} {pos : Nat} (hle : cur.oldPos ≤ pos)
    (hend : pos ≤ cur.oldPos + oldLen cur.rest) :
    (cur.seek pos).Covers pos ∧ (cur.seek pos).oldPos ≤ pos
      ∧ cur.Leads (cur.seek pos) := by
  by_cases hc : cur.Covers pos
  · rw [seek_of_covers hc]
    exact ⟨hc, hle, .refl⟩
  cases hn : cur.next with
  | none =>
      -- only the end of the operations has no next cursor
      exfalso
      apply hc
      unfold next at hn
      split at hn
      case h_1 heq =>
        unfold Covers
        rw [heq] at hend ⊢
        rw [oldLen_nil] at hend
        dsimp only
        omega
      all_goals cases hn
  | some cur' =>
      have hle' := (covers_next hn).2.2 hle hc
      obtain ⟨ops, hrest, -, -, hold, -⟩ := next_spec hn
      rw [hrest, oldLen_append] at hend
      have hdec := length_next hn
      obtain ⟨h₁, h₂, h₃⟩ := seek_spec hle' (by omega)
      rw [seek_of_next hc hn]
      exact ⟨h₁, h₂, .head hn h₃⟩
termination_by cur.rest.length

/-- Looking from further down the chain finds the same cursor, unless
both stand at the position itself. -/
theorem seek_of_leads {a b : Cursor} (h : a.Leads b) (hle : b.oldPos ≤ pos) :
    b.seek pos = a.seek pos
      ∨ ((a.seek pos).oldPos = pos ∧ b.oldPos = pos) := by
  induction h using Relation.ReflTransGen.head_induction_on with
  | refl => exact .inl rfl
  | @head a' c hn hrest ih =>
      have hmono := Leads.oldPos_le hrest
      by_cases hc : a'.Covers pos
      · right
        rw [seek_of_covers hc]
        rcases (covers_next hn).2.1 hc with hlt | ⟨h₁, h₂⟩
        · omega
        · omega
      · rw [seek_of_next hc hn]
        exact ih

/-- A turn that covers a later position covers every earlier one that is
not behind it. -/
theorem Covers.of_lt {p q : Nat} (h : cur.Covers q) (hle : cur.oldPos ≤ p)
    (hlt : p < q) : cur.Covers p := by
  cases hn : cur.next with
  | none =>
      unfold next at hn
      unfold Covers at h
      split at hn
      case h_1 heq =>
        rw [heq] at h
        dsimp only at h
        omega
      all_goals cases hn
  | some cur' =>
      obtain ⟨hspan, hpoint, -⟩ := @covers_next _ _ hn q
      rcases hpoint h with hlt' | ⟨h₁, h₂⟩
      · exact (covers_next hn).1 (by omega) hle
      · omega

end Cursor

-- == the rewind

/-- The start of the walk. -/
def start (c : ChangeSet) : Cursor := ⟨0, c.changes, 0, 0⟩

/-- What the fields of a cursor on the chain say. -/
def Standing (c : ChangeSet) (cur : Cursor) : Prop :=
  ∃ ops, c.changes = ops ++ cur.rest ∧ cur.index = ops.length
    ∧ cur.oldPos = oldLen ops ∧ cur.newPos = newLen ops

variable {c : ChangeSet} {cur : Cursor} {pos : Nat} {assoc : Assoc}

theorem standing_of_leads (h : c.start.Leads cur) : c.Standing cur := by
  induction h with
  | refl => exact ⟨[], rfl, rfl, rfl, rfl⟩
  | tail _ hn ih =>
      obtain ⟨ops, hc, hi, ho, hw⟩ := ih
      obtain ⟨ops', hrest, -, hi', ho', hw'⟩ := Cursor.next_spec hn
      refine ⟨ops ++ ops', ?_, ?_, ?_, ?_⟩
      · rw [hc, hrest, List.append_assoc]
      · rw [hi', hi, List.length_append]
      · rw [ho', ho, oldLen_append]
      · rw [hw', hw, newLen_append]

/-- The walk back goes all the way: its last stop is the first
operation. -/
private theorem rewindLoop_eq (changes : List Operation) (pos : Nat)
    (ops : List Operation) : ∀ cur : Cursor,
      cur.oldPos = oldLen ops → cur.newPos = newLen ops → ops ≠ [] →
      rewindLoop changes pos ops.zipIdx.reverse cur
        = .ok ⟨0, changes, 0, 0⟩ := by
  induction ops using List.reverseRecOn with
  | nil =>
      intro cur _ _ hne
      exact absurd rfl hne
  | append_singleton ops op ih =>
      intro cur hold hnew _
      rw [oldLen_append, oldLen_cons, oldLen_nil] at hold
      rw [newLen_append, newLen_cons, newLen_nil] at hnew
      rw [List.zipIdx_append, List.reverse_append]
      simp only [List.zipIdx_cons, List.zipIdx_nil, List.reverse_cons,
        List.reverse_nil, List.nil_append, List.cons_append, rewindLoop]
      rw [checkedSub_of_le (show op.old ≤ cur.oldPos from by omega),
        checkedSub_of_le (show op.new ≤ cur.newPos from by omega)]
      simp only [ok_bind]
      by_cases hops : ops = []
      · subst hops
        rw [if_pos (by simp only [oldLen_nil] at hold; omega)]
        simp only [oldLen_nil, newLen_nil] at hold hnew
        simp only [List.zipIdx_nil, List.reverse_nil, rewindLoop,
          List.length_nil, Nat.add_zero, List.drop_zero]
        rw [show cur.oldPos - op.old = 0 from by omega,
          show cur.newPos - op.new = 0 from by omega]
      · split
        · exact ih _ (show cur.oldPos - op.old = _ from by omega)
            (show cur.newPos - op.new = _ from by omega) hops
        · exact ih _ (show cur.oldPos - op.old = _ from by omega)
            (show cur.newPos - op.new = _ from by omega) hops

/-- A rewind ends at the start of the walk. -/
theorem rewind_eq (h : c.Standing cur) (hpos : pos < cur.oldPos) :
    c.rewind pos (cur.turnIndex c.changes.length) cur = .ok c.start := by
  obtain ⟨ops, hc, hi, hold, hnew⟩ := h
  have htake : c.changes.take (cur.turnIndex c.changes.length) = ops := by
    unfold Cursor.turnIndex
    split
    · next heq => rw [List.take_length, hc, heq, List.append_nil]
    · rw [hi, hc, List.take_left]
  have hne : ops ≠ [] := by
    rintro rfl
    rw [oldLen_nil] at hold
    omega
  rw [rewind, htake, rewindLoop_eq c.changes pos ops cur hold hnew hne]
  rfl

-- == the sweep

/-- Where on the chain the sweep, standing at `cur`, moves a position. -/
def place (c : ChangeSet) (cur : Cursor) (pos : Nat) : Cursor :=
  if pos < cur.oldPos then c.start.seek pos else cur.seek pos

/-- The image of a position under the turn of a cursor that covers it. -/
def image (U : Unicode) (cur : Cursor) (pos : Nat) (assoc : Assoc) : Nat :=
  (cur.map U pos assoc).getD 0

theorem map_eq_image (h : cur.Covers pos) :
    cur.map U pos assoc = some (image U cur pos assoc) := by
  obtain ⟨new, hnew⟩ := Option.isSome_iff_exists.mp
    (Cursor.map_isSome.mpr h)
  rw [image, hnew]
  rfl

/-- The sweep without its loops: every position is moved where it is
placed, and the walk stands there for the next one. -/
def sweep (U : Unicode) (c : ChangeSet) :
    Cursor → List (Nat × Assoc) → List Nat
  | _, [] => []
  | cur, (pos, assoc) :: positions =>
      image U (c.place cur pos) pos assoc
        :: sweep U c (c.place cur pos) positions

attribute [grind =] sweep

/-- Placed within the text, a position is covered, by a cursor of the
chain that is not past it. -/
theorem place_spec (h : c.start.Leads cur) (hpos : pos ≤ oldLen c.changes) :
    (c.place cur pos).Covers pos ∧ (c.place cur pos).oldPos ≤ pos
      ∧ c.start.Leads (c.place cur pos) := by
  unfold place
  split
  · exact Cursor.seek_spec (Nat.zero_le pos)
      (show pos ≤ 0 + oldLen c.changes from by omega)
  · next hlt =>
      obtain ⟨ops, hc, -, hold, -⟩ := standing_of_leads h
      rw [hc, oldLen_append] at hpos
      obtain ⟨h₁, h₂, h₃⟩ := Cursor.seek_spec (Nat.le_of_not_lt hlt)
        (show pos ≤ cur.oldPos + oldLen cur.rest from by omega)
      exact ⟨h₁, h₂, h.trans h₃⟩

theorem place_of_covers (hle : cur.oldPos ≤ pos) (h : cur.Covers pos) :
    c.place cur pos = cur := by
  rw [place, if_neg (Nat.not_lt.mpr hle), Cursor.seek_of_covers h]

/-- From the start a position is placed where it is found. -/
theorem place_start (c : ChangeSet) (pos : Nat) :
    c.place c.start pos = c.start.seek pos := by
  unfold place
  exact ite_self _

/-- Only the place of the first position matters to the sweep. -/
theorem sweep_congr {cur' : Cursor} {positions : List (Nat × Assoc)}
    (h : c.place cur pos = c.place cur' pos) :
    sweep U c cur ((pos, assoc) :: positions)
      = sweep U c cur' ((pos, assoc) :: positions) := by
  rw [sweep, sweep, h]

/-- What a turn moves is what the sweep moves first, and it stops at the
end of the list, at a position behind it, or at one it does not cover. -/
private theorem mapLoop_spec (c : ChangeSet) (cur : Cursor) :
    ∀ {positions : List (Nat × Assoc)} {moved left},
      mapLoop U cur positions = (moved, left) →
      sweep U c cur positions = moved ++ sweep U c cur left
        ∧ (∃ taken, positions = taken ++ left ∧ taken.length = moved.length)
        ∧ ∀ p a rest, left = (p, a) :: rest →
            p < cur.oldPos ∨ (cur.oldPos ≤ p ∧ ¬ cur.Covers p) := by
  intro positions
  induction positions with
  | nil =>
      intro moved left h
      rw [mapLoop] at h
      injection h with h₁ h₂
      subst h₁ h₂
      exact ⟨rfl, ⟨[], rfl, rfl⟩, fun _ _ _ h => by cases h⟩
  | cons head positions ih =>
      intro moved left h
      obtain ⟨pos, assoc⟩ := head
      rw [mapLoop] at h
      by_cases hlt : pos < cur.oldPos
      · rw [if_pos hlt] at h
        injection h with h₁ h₂
        subst h₁ h₂
        refine ⟨rfl, ⟨[], rfl, rfl⟩, fun p a rest heq => ?_⟩
        injection heq with heq
        injection heq with heq
        exact .inl (heq ▸ hlt)
      · rw [if_neg hlt] at h
        have hle := Nat.le_of_not_lt hlt
        by_cases hc : cur.Covers pos
        · rw [map_eq_image hc] at h
          injection h with h₁ h₂
          obtain ⟨hs, ⟨taken, ht, hlen⟩, hstop⟩ :=
            @ih (mapLoop U cur positions).1 (mapLoop U cur positions).2 rfl
          subst h₁ h₂
          refine ⟨?_, ⟨(pos, assoc) :: taken, ?_, ?_⟩, hstop⟩
          · rw [sweep, place_of_covers hle hc, hs]
            rfl
          · rw [List.cons_append, ← ht]
          · rw [List.length_cons, List.length_cons, hlen]
        · have hnone : cur.map U pos assoc = none := by
            rw [← Option.not_isSome_iff_eq_none, Cursor.map_isSome]
            exact hc
          rw [hnone] at h
          injection h with h₁ h₂
          subst h₁ h₂
          refine ⟨rfl, ⟨[], rfl, rfl⟩, fun p a rest heq => ?_⟩
          injection heq with heq
          injection heq with heq
          subst heq
          exact .inr ⟨hle, hc⟩

/-- Turns enough to move the positions from `cur` on: to the end of the
operations for the first one, after a rewind if it is behind, and all
the way for each of the others. -/
private def turns (c : ChangeSet) (cur : Cursor) :
    List (Nat × Assoc) → Nat
  | [] => 1
  | (pos, _) :: positions =>
      (if pos < cur.oldPos then c.changes.length + 2
        else cur.rest.length + 1)
        + positions.length * (c.changes.length + 3)

private theorem turns_start (c : ChangeSet) (x : Nat × Assoc)
    (left : List (Nat × Assoc)) :
    c.turns c.start (x :: left) = c.changes.length + 1
      + left.length * (c.changes.length + 3) :=
  congrArg (· + _) (if_neg (Nat.not_lt_zero x.1))

/-- A position moved leaves turns to spare for the next one. -/
private theorem turns_of_moved (c : ChangeSet) (cur : Cursor)
    {taken : List (Nat × Assoc)} (hne : taken ≠ []) (x : Nat × Assoc)
    (left : List (Nat × Assoc)) :
    c.changes.length + 3 + left.length * (c.changes.length + 3)
      < c.turns cur (taken ++ x :: left) := by
  cases taken with
  | nil => exact absurd rfl hne
  | cons y taken =>
      obtain ⟨pos, assoc⟩ := y
      have hmul : (left.length + 1) * (c.changes.length + 3)
          ≤ (taken ++ x :: left).length * (c.changes.length + 3) := by
        refine Nat.mul_le_mul_right _ ?_
        rw [List.length_append, List.length_cons]
        omega
      rw [Nat.succ_mul] at hmul
      rw [List.cons_append, turns]
      split <;> omega

/-- The loops perform the sweep: on positions within the text no turn
panics, and the bound on the turns is not met. -/
private theorem updateLoop_eq (c : ChangeSet) :
    ∀ (fuel : Nat) {cur : Cursor} {positions : List (Nat × Assoc)},
      c.start.Leads cur → (∀ x ∈ positions, x.1 ≤ oldLen c.changes) →
      c.turns cur positions ≤ fuel →
      updateLoop U c fuel cur positions = .ok (sweep U c cur positions) := by
  intro fuel
  induction fuel with
  | zero =>
      intro cur positions _ _ hfuel
      exfalso
      cases positions with
      | nil => simp [turns] at hfuel
      | cons x xs =>
          rw [turns] at hfuel
          split at hfuel <;> omega
  | succ fuel ih =>
      intro cur positions hcur hpos hfuel
      rw [updateLoop]
      rcases hmap : mapLoop U cur positions with ⟨moved, left⟩
      obtain ⟨hs, ⟨taken, ht, hlen⟩, hstop⟩ := mapLoop_spec c cur hmap
      rw [hs]
      cases left with
      | nil => rw [sweep, List.append_nil]
      | cons head left =>
          obtain ⟨pos, assoc⟩ := head
          have hin : ∀ x ∈ (pos, assoc) :: left, x.1 ≤ oldLen c.changes := by
            intro x hx
            refine hpos x ?_
            rw [ht]
            exact List.mem_append_right _ hx
          have hp : pos ≤ oldLen c.changes := hin _ List.mem_cons_self
          have hstand := standing_of_leads hcur
          -- a turn that moved nothing still faces the same position
          have hturns : c.changes.length + 3
                + left.length * (c.changes.length + 3) ≤ fuel
              ∨ c.turns cur ((pos, assoc) :: left) ≤ fuel + 1 := by
            cases taken with
            | nil =>
                right
                rwa [ht, List.nil_append] at hfuel
            | cons y taken =>
                left
                have hmore := turns_of_moved c cur
                  (List.cons_ne_nil y taken) (pos, assoc) left
                rw [← ht] at hmore
                omega
          rw [turns] at hturns
          dsimp only
          rcases hstop pos assoc left rfl with hlt | ⟨hle, hnc⟩
          · rw [if_pos hlt, rewind_eq hstand hlt]
            rw [if_pos hlt] at hturns
            have hrun := @ih c.start ((pos, assoc) :: left) .refl hin (by
              rw [turns_start]
              omega)
            have hplace : c.place c.start pos = c.place cur pos := by
              rw [place_start, place, if_pos hlt]
            rw [ok_bind, hrun, ok_bind, sweep_congr hplace]
            rfl
          · rw [if_neg (Nat.not_lt.mpr hle)]
            rw [if_neg (Nat.not_lt.mpr hle)] at hturns
            cases hn : cur.next with
            | none =>
                -- the end of the operations covers the end of the text
                exfalso
                have hcov := (place_spec hcur hp).1
                rw [place, if_neg (Nat.not_lt.mpr hle), Cursor.seek,
                  if_neg hnc] at hcov
                split at hcov
                · exact hnc hcov
                · next heq =>
                    rw [hn] at heq
                    cases heq
            | some cur' =>
                have hle' := (Cursor.covers_next hn).2.2 hle hnc
                have hdec := Cursor.length_next hn
                have hrest : cur.rest.length ≤ c.changes.length := by
                  obtain ⟨ops, hc, -⟩ := hstand
                  rw [hc, List.length_append]
                  omega
                have hrun := ih (hcur.tail hn) hin (by
                  rw [turns, if_neg (Nat.not_lt.mpr hle')]
                  omega)
                have hplace : c.place cur' pos = c.place cur pos := by
                  rw [place, if_neg (Nat.not_lt.mpr hle'), place,
                    if_neg (Nat.not_lt.mpr hle), Cursor.seek_of_next hnc hn]
                simp only [hrun, ok_bind, sweep_congr hplace]
                rfl

/-- `update_positions` on positions within the text: it does not panic,
and performs the sweep. -/
theorem updatePositions_eq {positions : List (Nat × Assoc)}
    (h : ∀ x ∈ positions, x.1 ≤ oldLen c.changes) :
    updatePositions U c positions = .ok (sweep U c c.start positions) := by
  refine updateLoop_eq c _ .refl h ?_
  cases positions with
  | nil => exact Nat.le_add_left _ _
  | cons x positions =>
      show c.turns c.start (x :: positions) ≤ _
      rw [turns_start, List.length_cons, Nat.succ_mul]
      omega

-- == homes

/-- The first operation, with its turn, that covers a position: where
`map_pos` moves it. -/
def home (c : ChangeSet) (pos : Nat) : Cursor := c.start.seek pos

theorem home_spec (h : pos ≤ oldLen c.changes) :
    (c.home pos).Covers pos ∧ (c.home pos).oldPos ≤ pos
      ∧ c.start.Leads (c.home pos) :=
  Cursor.seek_spec (Nat.zero_le pos)
    (show pos ≤ 0 + oldLen c.changes from by omega)

/-- Where a home starts, the positions at its start have their home
too. -/
theorem home_oldPos {p q : Nat} (hq : q ≤ oldLen c.changes) (hpq : p < q)
    (hhome : (c.home q).oldPos = p) :
    (c.home q).Covers p ∧ (c.home p).oldPos = p := by
  obtain ⟨hcov, -, hleads⟩ := home_spec hq
  have hcov := hcov.of_lt (Nat.le_of_eq hhome) hpq
  refine ⟨hcov, ?_⟩
  rcases Cursor.seek_of_leads hleads (Nat.le_of_eq hhome) with h | ⟨h, -⟩
  · rw [Cursor.seek_of_covers hcov] at h
    rw [home, ← h, hhome]
  · exact h

/-- `map_pos` moves a position by its home. -/
theorem mapPos_eq (h : pos ≤ oldLen c.changes) :
    mapPos U c pos assoc = .ok (image U (c.home pos) pos assoc) := by
  have hin : ∀ x ∈ [(pos, assoc)], x.1 ≤ oldLen c.changes := by
    intro x hx
    rw [List.mem_singleton] at hx
    subst hx
    exact h
  rw [mapPos, updatePositions_eq hin, sweep, place_start]
  rfl

/-- Where the sweep stands after moving the positions. -/
def standAfter (c : ChangeSet) : Cursor → List (Nat × Assoc) → Cursor
  | cur, [] => cur
  | cur, (pos, _) :: positions => standAfter c (c.place cur pos) positions

attribute [grind =] standAfter

theorem standAfter_append (c : ChangeSet) (cur : Cursor)
    (ps qs : List (Nat × Assoc)) :
    c.standAfter cur (ps ++ qs) = c.standAfter (c.standAfter cur ps) qs := by
  induction ps generalizing cur with
  | nil => rfl
  | cons x ps ih => exact ih _

theorem leads_standAfter {ps : List (Nat × Assoc)} (h : c.start.Leads cur)
    (hps : ∀ x ∈ ps, x.1 ≤ oldLen c.changes) :
    c.start.Leads (c.standAfter cur ps) := by
  induction ps generalizing cur with
  | nil => exact h
  | cons x ps ih =>
      obtain ⟨hx, hps⟩ := List.forall_mem_cons.mp hps
      exact ih (place_spec h hx).2.2 hps

/-- What the sweep makes of each position, the ones before it given. -/
private theorem forall₂_sweep {R : Nat × Assoc → Nat → Prop}
    (ps : List (Nat × Assoc)) :
    ∀ cur, List.Forall₂ R ps (sweep U c cur ps) ↔
      ∀ l p a r, ps = l ++ (p, a) :: r →
        R (p, a) (image U (c.place (c.standAfter cur l) p) p a) := by
  induction ps with
  | nil =>
      intro cur
      refine ⟨fun _ l p a r h => ?_, fun _ => .nil⟩
      exact absurd h.symm (by simp)
  | cons x ps ih =>
      intro cur
      obtain ⟨pos, assoc⟩ := x
      rw [sweep, List.forall₂_cons, ih]
      constructor
      · rintro ⟨hhead, htail⟩ l p a r h
        cases l with
        | nil =>
            injection h with hx hr
            injection hx with hp ha
            subst hp ha
            exact hhead
        | cons y l =>
            injection h with hx hr
            subst hx
            exact htail l p a r hr
      · intro h
        refine ⟨h [] pos assoc ps rfl, fun l p a r hr => ?_⟩
        exact h ((pos, assoc) :: l) p a r (by rw [hr]; rfl)

/-- A position is moved at its home, or at the home of a larger one
before it, if that home starts at the position. -/
private theorem place_or_stray {ps : List (Nat × Assoc)}
    (hps : ∀ x ∈ ps, x.1 ≤ oldLen c.changes) :
    ∀ {p : Nat}, p ≤ oldLen c.changes →
      c.place (c.standAfter c.start ps) p = c.home p
        ∨ ((c.home p).oldPos = p ∧ ∃ l₁ q b l₂,
            ps = l₁ ++ (q, b) :: l₂ ∧ p < q ∧ (∀ x ∈ l₂, x.1 = p)
            ∧ c.place (c.standAfter c.start ps) p = c.home q
            ∧ (c.home q).oldPos = p) := by
  induction ps using List.reverseRecOn with
  | nil =>
      intro p _
      exact .inl (place_start c p)
  | append_singleton ps x ih =>
      intro p hp
      obtain ⟨q, b⟩ := x
      obtain ⟨hps', hq⟩ := List.forall_mem_append.mp hps
      have hq : q ≤ oldLen c.changes := hq _ List.mem_cons_self
      have hbefore := leads_standAfter .refl hps'
      obtain ⟨hcov, hle, hleads⟩ := place_spec hbefore hq
      rw [standAfter_append, standAfter, standAfter]
      -- `cur` is where the sweep moved the last position before `p`
      generalize hcur : c.place (c.standAfter c.start ps) q = cur at *
      by_cases hlt : p < cur.oldPos
      · left
        rw [place, if_pos hlt]
        rfl
      have hcurp := Nat.le_of_not_lt hlt
      rcases Cursor.seek_of_leads hleads hcurp with heq | ⟨hhome, hstand⟩
      · left
        rw [place, if_neg hlt, heq]
        rfl
      have hpq : p ≤ q := by omega
      have hcovp : cur.Covers p := by
        rcases Nat.eq_or_lt_of_le hpq with rfl | hpq
        · exact hcov
        · exact hcov.of_lt hcurp hpq
      rw [place_of_covers hcurp hcovp]
      rcases ih hps' hq with h | ⟨hhomeq, l₁, q₁, b₁, l₂, hl, hlt₁, hall, h, hq₁⟩
      · rcases Nat.eq_or_lt_of_le hpq with rfl | hpq
        · exact .inl (hcur.symm.trans h)
        · have hch : cur = c.home q := hcur.symm.trans h
          refine .inr ⟨hhome, ps, q, b, [], rfl, hpq, ?_, hch, ?_⟩
          · intro x hx
            cases hx
          · rw [← hch, hstand]
      · -- the last one has strayed itself, so it is a repeat of `p`
        have hch : cur = c.home q₁ := hcur.symm.trans h
        have hqp : q = p := by
          rw [← hq₁, ← hch, hstand]
        subst hqp
        refine .inr ⟨hhome, l₁, q₁, b₁, l₂ ++ [(q, b)], ?_, hlt₁, ?_, hch, hq₁⟩
        · rw [hl, List.append_assoc, List.cons_append]
        · intro x hx
          rcases List.mem_append.mp hx with hx | hx
          · exact hall x hx
          · rw [List.mem_singleton] at hx
            rw [hx]

/-- Behind a larger position whose home starts at it, a position is
moved there. -/
private theorem place_of_stray {l₁ : List (Nat × Assoc)} {q p : Nat}
    {b : Assoc} (hpq : p < q) (hhome : (c.home q).oldPos = p) :
    ∀ {l₂ : List (Nat × Assoc)},
      (∀ x ∈ l₁ ++ (q, b) :: l₂, x.1 ≤ oldLen c.changes) →
      (∀ x ∈ l₂, x.1 = p) →
      c.place (c.standAfter c.start (l₁ ++ (q, b) :: l₂)) p = c.home q := by
  intro l₂
  have hcov : ∀ cur : Cursor, cur = c.home q → cur.Covers q →
      c.place cur p = c.home q := by
    rintro cur rfl hc
    exact place_of_covers (Nat.le_of_eq hhome)
      (hc.of_lt (Nat.le_of_eq hhome) hpq)
  induction l₂ using List.reverseRecOn with
  | nil =>
      intro hin _
      obtain ⟨hl₁, hq⟩ := List.forall_mem_append.mp hin
      have hq : q ≤ oldLen c.changes := hq _ List.mem_cons_self
      have hplace := place_spec (leads_standAfter .refl hl₁) hq
      rw [standAfter_append, standAfter, standAfter]
      rcases place_or_stray hl₁ hq with h | ⟨h, -⟩
      · exact hcov _ h hplace.1
      · -- a stray would have its home at itself, not at `p`
        omega
  | append_singleton l₂ x ih =>
      intro hin hall
      obtain ⟨hall', hx⟩ := List.forall_mem_append.mp hall
      obtain ⟨r, a⟩ := x
      obtain rfl : r = p := hx _ List.mem_cons_self
      have hin' : ∀ x ∈ l₁ ++ (q, b) :: l₂, x.1 ≤ oldLen c.changes := by
        intro x hx
        refine hin x ?_
        rw [← List.cons_append, ← List.append_assoc]
        exact List.mem_append_left _ hx
      have hq : q ≤ oldLen c.changes := hin (q, b) (by simp)
      rw [← List.cons_append, ← List.append_assoc, standAfter_append,
        standAfter, standAfter, ih hin' hall']
      exact hcov _ rfl (home_spec hq).1

-- == the law

/-- How far into text inserted at the start of the turn's operation a
position at that start goes. -/
def edgeOffset (U : Unicode) (cur : Cursor) (assoc : Assoc) : Nat :=
  match cur.rest with
  | .insert s :: .delete _ :: _ =>
      if assoc.stayAtGaps then 0 else assoc.insertOffset U s
  | .insert s :: _ => assoc.insertOffset U s
  | _ => 0

/-- The image of the position an operation starts at. -/
theorem image_edge (hpos : cur.oldPos = pos) (h : cur.Covers pos) :
    image U cur pos assoc = cur.newPos + edgeOffset U cur assoc := by
  subst hpos
  unfold Cursor.Covers at h
  split at h
  case h_1 heq => simp [image, Cursor.map, edgeOffset, heq]
  case h_2 len rest heq =>
    simp only [image, Cursor.map, edgeOffset, heq, if_pos h, Nat.sub_self]
    rfl
  case h_3 len rest heq =>
    simp only [image, Cursor.map, edgeOffset, heq, if_pos h]
    rfl
  case h_4 s len rest heq =>
    simp only [image, Cursor.map, edgeOffset, heq, if_pos h, true_and]
    cases assoc <;> simp [Assoc.stayAtGaps, Assoc.sticky]
  case h_5 s rest hno heq =>
    unfold image Cursor.map edgeOffset
    rw [heq]
    split
    case h_5 heq' =>
      injection heq' with hs _
      injection hs with hs
      subst hs
      simp
    all_goals next heq' => simp_all

/-- Whenever a position `p` comes after a larger one `q`, with at most
repeats of `p` between them, and the operation that contains `q` starts
at `p`: that operation takes `p` where its home takes it. -/
def Unstrayed (U : Unicode) (c : ChangeSet)
    (positions : List (Nat × Assoc)) : Prop :=
  ∀ l₁ q b l₂ p a l₃, positions = l₁ ++ (q, b) :: l₂ ++ (p, a) :: l₃ →
    p < q → (∀ x ∈ l₂, x.1 = p) → (c.home q).oldPos = p →
    (c.home q).newPos + edgeOffset U (c.home q) a
      = (c.home p).newPos + edgeOffset U (c.home p) a

/-- On positions within the text, `update_positions` does what
`map_pos` does to each of them exactly if no position strays. -/
theorem update_positions_iff {c : ChangeSet}
    (hlen : oldLen c.changes = c.len) {positions : List (Nat × Assoc)}
    (hpos : ∀ x ∈ positions, x.1 ≤ c.len) :
    (∃ out, updatePositions U c positions = .ok out
        ∧ List.Forall₂ (fun x new => mapPos U c x.1 x.2 = .ok new)
            positions out)
      ↔ Unstrayed U c positions := by
  rw [← hlen] at hpos
  have hout : (∃ out, updatePositions U c positions = .ok out
        ∧ List.Forall₂ (fun x new => mapPos U c x.1 x.2 = .ok new)
            positions out)
      ↔ List.Forall₂ (fun x new => mapPos U c x.1 x.2 = .ok new)
          positions (sweep U c c.start positions) := by
    rw [updatePositions_eq hpos]
    constructor
    · rintro ⟨out, hout, h⟩
      injection hout with hout
      exact hout ▸ h
    · intro h
      exact ⟨_, rfl, h⟩
  rw [hout, forall₂_sweep]
  constructor
  · intro h l₁ q b l₂ p a l₃ hsplit hpq hall hhome
    have hin : ∀ x ∈ l₁ ++ (q, b) :: l₂, x.1 ≤ oldLen c.changes := by
      intro x hx
      refine hpos x ?_
      rw [hsplit]
      exact List.mem_append_left _ hx
    have hq : q ≤ oldLen c.changes := hin (q, b) (by simp)
    obtain ⟨hcov, hp⟩ := home_oldPos hq hpq hhome
    have himage := h _ p a l₃ hsplit
    rw [place_of_stray hpq hhome hin hall, mapPos_eq (by omega)] at himage
    injection himage with himage
    have hcovp := (home_spec (show p ≤ oldLen c.changes from by omega)).1
    rw [← image_edge hp hcovp, ← image_edge hhome hcov, ← himage]
  · intro h l p a r hsplit
    have hin : ∀ x ∈ l, x.1 ≤ oldLen c.changes := by
      intro x hx
      refine hpos x ?_
      rw [hsplit]
      exact List.mem_append_left _ hx
    have hp : p ≤ oldLen c.changes := by
      refine hpos (p, a) ?_
      rw [hsplit]
      exact List.mem_append_right _ List.mem_cons_self
    rw [mapPos_eq hp]
    rcases place_or_stray hin hp with
      heq | ⟨hhome, l₁, q, b, l₂, hl, hpq, hall, heq, hq⟩
    · rw [heq]
    · subst hl
      have hqn : q ≤ oldLen c.changes := hin (q, b) (by simp)
      have hcov := (home_oldPos hqn hpq hq).1
      have hcovp := (home_spec hp).1
      have hedge := h l₁ q b l₂ p a r hsplit hpq hall hq
      rw [heq, image_edge hq hcov, image_edge hhome hcovp, hedge]

/-- A sorted list of positions around an insertion. -/
theorem update_positions_iff_sorted :
    let c : ChangeSet := ⟨[.insert ['a', 'b'], .retain 3], 3, 5⟩
    (∃ out, updatePositions .ascii c [(0, .before), (1, .after)] = .ok out
        ∧ List.Forall₂ (fun x new => mapPos .ascii c x.1 x.2 = .ok new)
            [(0, .before), (1, .after)] out)
      ↔ Unstrayed .ascii c [(0, .before), (1, .after)] :=
  update_positions_iff rfl (by decide)

/-- Unsorted, the start of the text strays past the inserted text: 2
instead of 0. -/
theorem not_update_positions_unsorted :
    let c : ChangeSet := ⟨[.insert ['a', 'b'], .retain 3], 3, 5⟩
    ¬ ∃ out, updatePositions .ascii c [(1, .before), (0, .before)] = .ok out
        ∧ List.Forall₂ (fun x new => mapPos .ascii c x.1 x.2 = .ok new)
            [(1, .before), (0, .before)] out := by
  intro c
  rintro ⟨out, hout, hall⟩
  have hsweep : updatePositions .ascii c [(1, .before), (0, .before)]
      = .ok [3, 2] := by
    decide
  rw [hsweep] at hout
  injection hout with hout
  subst hout
  rw [List.forall₂_cons, List.forall₂_cons] at hall
  exact absurd hall.2.1 (by decide)

-- == bounds

/-- An association never leads out of the inserted text. -/
theorem insertOffset_le (assoc : Assoc) (s : Tendril) :
    assoc.insertOffset U s ≤ s.length := by
  cases assoc with
  | afterWord => exact (List.takeWhile_prefix _).length_le
  | beforeWord => exact Nat.sub_le _ _
  | after => exact Nat.le_refl _
  | afterSticky => exact Nat.le_refl _
  | before => exact Nat.zero_le _
  | beforeSticky => exact Nat.zero_le _

/-- A turn moves its positions into the new text. -/
theorem image_le {c : ChangeSet} {cur : Cursor} (h : c.Standing cur)
    {pos : Nat} {assoc : Assoc} (hle : cur.oldPos ≤ pos) :
    image U cur pos assoc ≤ newLen c.changes := by
  obtain ⟨ops, hc, -, -, hnew⟩ := h
  rw [hc, newLen_append, ← hnew]
  unfold image Cursor.map
  split
  case h_1 => split_ifs <;> simp
  case h_2 len rest heq =>
    rw [heq, newLen_cons, Edit.new_retain]
    split_ifs
    · rw [Option.getD_some]
      omega
    · exact Nat.zero_le _
  case h_3 => split_ifs <;> simp
  case h_4 s len rest heq =>
    have hoff := @insertOffset_le U assoc s
    rw [heq, newLen_cons, Edit.new_insert]
    split_ifs with h₁ h₂ h₃
    · rw [Option.getD_some]
      omega
    · rw [Option.getD_some]
      omega
    · rw [Option.getD_some]
      omega
    · exact Nat.zero_le _
  case h_5 s rest _ heq =>
    have hoff := @insertOffset_le U assoc s
    rw [heq, newLen_cons, Edit.new_insert]
    split_ifs
    · rw [Option.getD_some]
      omega
    · exact Nat.zero_le _

private theorem sweep_le {c : ChangeSet} {ps : List (Nat × Assoc)}
    {cur : Cursor} (h : c.start.Leads cur)
    (hps : ∀ x ∈ ps, x.1 ≤ oldLen c.changes) :
    (sweep U c cur ps).length = ps.length
      ∧ ∀ new ∈ sweep U c cur ps, new ≤ newLen c.changes := by
  induction ps generalizing cur with
  | nil => exact ⟨rfl, fun new hnew => by cases hnew⟩
  | cons x ps ih =>
      obtain ⟨pos, assoc⟩ := x
      obtain ⟨hx, hps⟩ := List.forall_mem_cons.mp hps
      obtain ⟨-, hle, hleads⟩ := place_spec h hx
      obtain ⟨hlen, hall⟩ := ih hleads hps
      refine ⟨?_, ?_⟩
      · rw [sweep, List.length_cons, List.length_cons, hlen]
      · rw [sweep, List.forall_mem_cons]
        exact ⟨image_le (standing_of_leads hleads) hle, hall⟩

/-- Positions within the old text are mapped into the new one, in any
order. -/
theorem updatePositions_le {c : ChangeSet} {positions : List (Nat × Assoc)}
    (h : ∀ x ∈ positions, x.1 ≤ oldLen c.changes) :
    ∃ out, updatePositions U c positions = .ok out
      ∧ out.length = positions.length
      ∧ ∀ new ∈ out, new ≤ newLen c.changes := by
  obtain ⟨hlen, hall⟩ := @sweep_le U c positions c.start .refl h
  exact ⟨_, updatePositions_eq h, hlen, hall⟩

/-- Whatever a turn moves lands in the new text. -/
private theorem mapLoop_le {c : ChangeSet} {cur : Cursor}
    (h : c.Standing cur) : ∀ positions : List (Nat × Assoc),
      ∀ new ∈ (mapLoop U cur positions).1, new ≤ newLen c.changes := by
  intro positions
  induction positions with
  | nil =>
      intro new hnew
      cases hnew
  | cons x positions ih =>
      obtain ⟨pos, assoc⟩ := x
      rw [mapLoop]
      split
      · intro new hnew
        cases hnew
      · next hle =>
          split
          · intro new hnew
            cases hnew
          · next newPos hmap =>
              have himage := @image_le U c cur h pos assoc (by omega)
              unfold image at himage
              rw [hmap, Option.getD_some] at himage
              exact List.forall_mem_cons.mpr ⟨himage, ih⟩

private theorem updateLoop_le {c : ChangeSet} : ∀ {fuel : Nat}
    {cur : Cursor} {positions : List (Nat × Assoc)} {out : List Nat},
    c.start.Leads cur → updateLoop U c fuel cur positions = .ok out →
    ∀ new ∈ out, new ≤ newLen c.changes := by
  intro fuel
  induction fuel with
  | zero =>
      intro cur positions out _ hx
      cases hx
  | succ fuel ih =>
      intro cur positions out hleads hx
      have hstanding := standing_of_leads hleads
      have hmoved := @mapLoop_le U c cur hstanding positions
      rw [updateLoop] at hx
      split at hx
      · next moved heq =>
          injection hx with hx
          rw [heq, hx] at hmoved
          exact hmoved
      · next moved pos assoc left heq =>
          rw [heq] at hmoved
          -- the rest is moved by later turns
          have hrest : ∀ {cur' : Cursor} {out' : List Nat},
              c.start.Leads cur' →
              updateLoop U c fuel cur' ((pos, assoc) :: left) = .ok out' →
              out = moved ++ out' → ∀ new ∈ out, new ≤ newLen c.changes := by
            rintro cur' out' hleads' hx' rfl new hnew
            rcases List.mem_append.mp hnew with hnew | hnew
            · exact hmoved new hnew
            · exact ih hleads' hx' new hnew
          split at hx
          · next hbehind =>
              rw [rewind_eq hstanding hbehind, ok_bind] at hx
              obtain ⟨out', hx', hx⟩ := bind_eq_ok.mp hx
              injection hx with hx
              exact hrest .refl hx' hx.symm
          · split at hx
            · cases hx
            · next cur' hnext =>
                obtain ⟨out', hx', hx⟩ := bind_eq_ok.mp hx
                injection hx with hx
                exact hrest (hleads.tail hnext) hx' hx.symm

/-- A position that is mapped at all is mapped into the new text. -/
theorem mapPos_le {new : Nat} (hx : mapPos U c pos assoc = .ok new) :
    new ≤ newLen c.changes := by
  unfold mapPos at hx
  obtain ⟨out, hout, hx⟩ := bind_eq_ok.mp hx
  have hmem := List.mem_of_getElem? (index_eq_ok.mp hx)
  exact @updateLoop_le U c _ c.start _ _ .refl hout new hmem

end ChangeSet

end Zmax
