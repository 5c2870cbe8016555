/-
Changes that overlap, and the selection of those that were applied.

Two index spaces meet in `change_by_selection_ignore_overlapping`: the
primary range is followed by its index in the original selection, and
looked up by that index among the ranges that were kept. `Follows` says
what the code is to leave, and `Aligned` for which patterns of kept and
ignored changes the two index spaces agree where it matters.
-/
import Mathlib.Data.List.Induction
import Zmax.Core.PerRange
import Zmax.Core.Proofs.Changes
import Zmax.Core.Proofs.Normalize
import Zmax.Core.Proofs.Revisions

namespace Zmax

namespace Transaction

variable {α : Type}

-- == what is applied

/-- The changes that do not start before the end of the last one
applied. -/
def applied : List (Nat × Nat × α) → Nat → List (Nat × Nat × α)
  | [], _ => []
  | x :: rest, last =>
      if x.1 < last then applied rest last else x :: applied rest x.2.1

/-- The changes applied, each with the text that `create_tendril` gave for
it. -/
def replaced (createTendril : Nat → Nat → Nat → Option Tendril)
    (xs : List (Nat × Nat × α)) (n : Nat) : List Change :=
  (xs.zipIdx n).map fun x =>
    (x.1.1, x.1.2.1, createTendril x.2 x.1.1 x.1.2.1)

attribute [grind =] applied

theorem applied_sublist (xs : List (Nat × Nat × α)) (last : Nat) :
    (applied xs last).Sublist xs := by
  induction xs generalizing last with
  | nil => exact .slnil
  | cons x xs ih =>
      rw [applied]
      split
      · exact (ih last).cons x
      · exact (ih x.2.1).cons_cons x

/-- Changes that are applied are ordered. -/
theorem ordered_replaced {createTendril : Nat → Nat → Nat → Option Tendril}
    {len : Nat} {xs : List (Nat × Nat × α)} {last n : Nat}
    (hlast : last ≤ len) (h : ∀ x ∈ xs, x.1 ≤ x.2.1 ∧ x.2.1 ≤ len) :
    Ordered len last (replaced createTendril (applied xs last) n) := by
  induction xs generalizing last n with
  | nil => exact hlast
  | cons x xs ih =>
      obtain ⟨hx, hxs⟩ := List.forall_mem_cons.mp h
      rw [applied]
      split
      · exact ih hlast hxs
      · next hge => exact ⟨Nat.le_of_not_lt hge, hx.1, ih hx.2 hxs⟩

-- == what is collected

/-- The ranges kept, noted one after the other. -/
def collect (primaryIndex : Nat) (xs : List (Nat × Range)) (s : Kept) :
    Kept :=
  xs.foldl (fun s x => s.note primaryIndex x.1 x.2) s

/-- Whichever branch is taken, the range is kept. -/
theorem ranges_note (p : Nat) (s : Kept) (idx : Nat) (range : Range) :
    (s.note p idx range).ranges = s.ranges ++ [range] := by
  unfold Kept.note
  split
  · rfl
  · split
    · split <;> rfl
    · rfl

theorem filterOverlapping_process (primaryIndex : Nat)
    (createTendril : Nat → Nat → Nat → Option Tendril)
    (xs : List (Nat × Nat × Nat × Range)) (last : Nat) (s : Kept) :
    filterOverlapping (Kept.process primaryIndex createTendril) xs last s
      = (collect primaryIndex ((applied xs last).map (·.2.2)) s,
        replaced createTendril (applied xs last) s.ranges.length) := by
  induction xs generalizing last s with
  | nil => rfl
  | cons x xs ih =>
      obtain ⟨start, stop, data⟩ := x
      rw [filterOverlapping, applied]
      dsimp only
      split
      · exact ih last s
      · rw [Kept.process, ih, ranges_note, List.length_append]
        rfl

variable {p : Nat} {xs : List (Nat × Range)}

/-- The last index in front of the primary one. -/
def inFront (p : Nat) (ks : List Nat) : Option Nat :=
  (ks.filter (· < p)).getLast?

/-- What the variables hold after the ranges of these indices. -/
structure Collected (p : Nat) (xs : List (Nat × Range)) (s : Kept) :
    Prop where
  ranges : s.ranges = xs.map (·.2)
  front : s.lastSelectionIdx = inFront p (xs.map (·.1))
  primary : s.newPrimaryIdx
    = if p ∈ xs.map (·.1) then some p
      else if (xs.map (·.1)).any (p < ·) then inFront p (xs.map (·.1))
      else none

theorem inFront_concat (ks : List Nat) (k : Nat) :
    inFront p (ks ++ [k]) = if k < p then some k else inFront p ks := by
  unfold inFront
  rw [List.filter_append]
  split
  · next h =>
      rw [List.filter_singleton, decide_eq_true h, cond_true,
        List.getLast?_concat]
  · next h =>
      rw [List.filter_singleton, decide_eq_false h, cond_false,
        List.append_nil]

theorem lastSelectionIdx_note (p : Nat) (s : Kept) (k : Nat)
    (range : Range) :
    (s.note p k range).lastSelectionIdx
      = if k < p ∧ s.newPrimaryIdx = none then some k
        else s.lastSelectionIdx := by
  unfold Kept.note
  cases s.newPrimaryIdx <;> grind

theorem newPrimaryIdx_note (p : Nat) (s : Kept) (k : Nat) (range : Range) :
    (s.note p k range).newPrimaryIdx
      = if k = p then some p
        else if p < k ∧ s.newPrimaryIdx = none then s.lastSelectionIdx
        else s.newPrimaryIdx := by
  unfold Kept.note
  cases hs : s.newPrimaryIdx <;> grind

/-- One more range, behind the others. -/
theorem Collected.note {s : Kept} (h : Collected p xs s) {k : Nat}
    (hk : ∀ x ∈ xs, x.1 < k) (range : Range) :
    Collected p (xs ++ [(k, range)]) (s.note p k range) := by
  have hlt : ∀ i ∈ xs.map (·.1), i < k := by
    intro i hi
    obtain ⟨x, hx, rfl⟩ := List.mem_map.mp hi
    exact hk x hx
  obtain ⟨hranges, hfront, hprimary⟩ := h
  have hmap : (xs ++ [(k, range)]).map (·.1) = xs.map (·.1) ++ [k] := by
    rw [List.map_append]
    rfl
  have hrange : (s.note p k range).ranges
      = (xs ++ [(k, range)]).map (·.2) := by
    rw [ranges_note, hranges, List.map_append]
    rfl
  refine ⟨hrange, ?_, ?_⟩ <;> rw [hmap, inFront_concat] <;>
    generalize xs.map (·.1) = ks at hlt hfront hprimary
  · -- the last index in front
    rw [lastSelectionIdx_note, hfront]
    by_cases hkp : k < p
    · -- no index so far is the primary one, or past it
      have hnone : s.newPrimaryIdx = none := by
        rw [hprimary]
        have hp : p ∉ ks := fun hp => by
          have := hlt p hp
          omega
        have hany : ¬ ks.any (p < ·) := by
          rw [List.any_eq_true]
          rintro ⟨i, hi, hip⟩
          have := hlt i hi
          have := of_decide_eq_true hip
          omega
        rw [if_neg hp, if_neg hany]
      rw [if_pos ⟨hkp, hnone⟩, if_pos hkp]
    · rw [if_neg (fun h => hkp h.1), if_neg hkp]
  · -- the index of the primary range
    have hmem : p ∈ ks ++ [k] ↔ p ∈ ks ∨ p = k := by
      rw [List.mem_append, List.mem_singleton]
    have hany : (ks ++ [k]).any (p < ·) = (ks.any (p < ·) || p < k) := by
      rw [List.any_append, List.any_cons, List.any_nil, Bool.or_false]
    have hpast : ks.any (p < ·) → p < k := by
      rw [List.any_eq_true]
      rintro ⟨i, hi, hip⟩
      exact Nat.lt_trans (of_decide_eq_true hip) (hlt i hi)
    rw [newPrimaryIdx_note, hany]
    by_cases hp : p ∈ ks
    · have hpk := hlt p hp
      rw [if_pos hp] at hprimary
      rw [if_neg (by omega), hprimary, if_neg (by simp),
        if_pos (hmem.mpr (.inl hp))]
    · rw [if_neg hp] at hprimary
      by_cases hkp : k = p
      · rw [if_pos hkp, if_pos (hmem.mpr (.inr hkp.symm))]
      · have hnot : ¬ (p ∈ ks ++ [k]) := by
          rw [hmem]
          rintro (h | h)
          · exact hp h
          · exact hkp h.symm
        rw [if_neg hkp, if_neg hnot, hfront]
        by_cases hpk : p < k
        · have hpast : (ks.any (p < ·) || decide (p < k)) = true := by
            simp [hpk]
          rw [if_pos hpast, if_neg (by omega : ¬ k < p)]
          split
          · rfl
          · next hsome =>
              rw [hprimary] at hsome ⊢
              split
              · rfl
              · next hno => exact absurd ⟨hpk, if_neg hno⟩ hsome
        · have hno : ¬ ks.any (p < ·) := fun h => hpk (hpast h)
          rw [if_neg hno] at hprimary
          rw [if_neg (fun h => hpk h.1), hprimary, if_neg (by simp_all)]

/-- The ranges of increasing indices, noted one after the other. -/
theorem collect_spec (h : xs.Pairwise fun a b => a.1 < b.1) :
    Collected p xs (collect p xs ⟨none, none, []⟩) := by
  induction xs using List.reverseRecOn with
  | nil => exact ⟨rfl, rfl, rfl⟩
  | append_singleton xs x ih =>
      obtain ⟨hxs, -, hlt⟩ := List.pairwise_append.mp h
      rw [collect, List.foldl_append]
      exact (ih hxs).note (fun y hy => hlt y hy x List.mem_cons_self) x.2

-- == what is left

/-- The changes of the selection that are applied. -/
def kept (selection : Selection) (changeRange : Nat → Range → Nat × Nat) :
    List (Nat × Nat × Nat × Range) :=
  applied (changeRanges selection changeRange) 0

/-- The indices, in the selection, of the ranges whose changes are
applied. -/
def keptIndices (selection : Selection)
    (changeRange : Nat → Range → Nat × Nat) : List Nat :=
  (kept selection changeRange).map (·.2.2.1)

/-- The transaction applies the changes that do not overlap, and the
selection is of their ranges, the primary range being the primary one
again when its change was applied. -/
structure Follows (doc : Rope) (selection : Selection)
    (changeRange : Nat → Range → Nat × Nat)
    (createTendril : Nat → Nat → Nat → Option Tendril)
    (tx : Transaction) (new : Selection) : Prop where
  applies : tx.apply doc = .ok (true, replaceAll doc 0
    (replaced createTendril (kept selection changeRange) 0))
  made : ∃ i, Selection.new
    ((kept selection changeRange).map (·.2.2.2)) i = .ok new
      ∧ (selection.primaryIndex ∈ keptIndices selection changeRange →
        (keptIndices selection changeRange)[i]?
          = some selection.primaryIndex)

/-- The index of the primary range is one among the kept ranges too: if
it is kept, no change in front of it is ignored; if not, and a change
behind it is applied, the last index in front of it that is kept is less
than the number of the kept ones. -/
def Aligned (primaryIndex : Nat) (ks : List Nat) : Prop :=
  (primaryIndex ∈ ks → ∀ i < primaryIndex, i ∈ ks) ∧
  (primaryIndex ∉ ks → (∃ k ∈ ks, primaryIndex < k) →
    ∀ i ∈ inFront primaryIndex ks, i < ks.length)

-- == increasing indices

/-- An increasing list from `a` on gets to `a + n` no earlier than at
`n`. -/
private theorem le_of_getElem? : ∀ {ks : List Nat} {a n v : Nat},
    ks.Pairwise (· < ·) → (∀ k ∈ ks, a ≤ k) → ks[n]? = some v → a + n ≤ v
  | k :: ks, a, 0, v, _, hge, hv => by
      injection hv with hv
      exact hv ▸ hge k List.mem_cons_self
  | k :: ks, a, n + 1, v, h, hge, hv => by
      obtain ⟨hk, hks⟩ := List.pairwise_cons.mp h
      have hle := hge k List.mem_cons_self
      have := le_of_getElem? (a := k + 1) hks hk hv
      omega

/-- It has `a + n` at `n` when it has everything up to there. -/
private theorem getElem?_eq_iff : ∀ {ks : List Nat} {a n : Nat},
    ks.Pairwise (· < ·) → (∀ k ∈ ks, a ≤ k) →
      (ks[n]? = some (a + n) ↔ ∀ i, a ≤ i → i ≤ a + n → i ∈ ks)
  | [], a, n, _, _ => by
      constructor
      · intro h
        cases h
      · intro h
        exact absurd (h a (Nat.le_refl a) (Nat.le_add_right a n))
          List.not_mem_nil
  | k :: ks, a, n, h, hge => by
      obtain ⟨hk, hks⟩ := List.pairwise_cons.mp h
      have hle := hge k List.mem_cons_self
      cases n with
      | zero =>
          rw [List.getElem?_cons_zero, Nat.add_zero]
          constructor
          · intro heq i hai hia
            injection heq with heq
            rw [Nat.le_antisymm hia hai, ← heq]
            exact List.mem_cons_self
          · intro hall
            rcases List.mem_cons.mp (hall a (Nat.le_refl a)
              (Nat.le_refl a)) with heq | hmem
            · rw [heq]
            · exact absurd (hk a hmem) (Nat.not_lt.mpr hle)
      | succ n =>
          rw [List.getElem?_cons_succ]
          constructor
          · intro hv
            have hka := le_of_getElem? (a := k + 1) hks hk hv
            have heq : k = a := by omega
            subst heq
            have hrec := (getElem?_eq_iff (a := k + 1) (n := n) hks hk).mp
              (by rw [hv]; congr 1; omega)
            intro i hki hin
            rcases Nat.eq_or_lt_of_le hki with rfl | hlt
            · exact List.mem_cons_self
            · exact List.mem_cons_of_mem _ (hrec i hlt (by omega))
          · intro hall
            have hmem := hall a (Nat.le_refl a) (Nat.le_add_right a _)
            have heq : k = a := by
              rcases List.mem_cons.mp hmem with heq | hmem
              · exact heq.symm
              · have := hk a hmem
                omega
            subst heq
            rw [show k + (n + 1) = k + 1 + n from by omega]
            refine (getElem?_eq_iff hks hk).mpr fun i hki hin => ?_
            rcases List.mem_cons.mp (hall i (by omega) (by omega))
              with rfl | hmem
            · omega
            · exact hmem

/-- An increasing list has `n` at `n` when it has everything up to
there. -/
theorem getElem?_self_iff {ks : List Nat} {n : Nat}
    (h : ks.Pairwise (· < ·)) :
    ks[n]? = some n ↔ ∀ i ≤ n, i ∈ ks := by
  have hget := getElem?_eq_iff (a := 0) (n := n) h fun _ _ => Nat.zero_le _
  rw [Nat.zero_add] at hget
  rw [hget]
  constructor
  · intro hall i hi
    exact hall i (Nat.zero_le i) hi
  · intro hall i _ hi
    exact hall i hi

-- == the law

section Law

variable {doc : Rope} {selection : Selection}
  {changeRange : Nat → Range → Nat × Nat}
  {createTendril : Nat → Nat → Nat → Option Tendril}

/-- Every change lies within the text. -/
def Fit (doc : Rope) (selection : Selection)
    (changeRange : Nat → Range → Nat × Nat) : Prop :=
  ∀ x ∈ selection.ranges.zipIdx,
    (changeRange x.2 x.1).1 ≤ (changeRange x.2 x.1).2
      ∧ (changeRange x.2 x.1).2 ≤ doc.length

theorem changeRanges_indices :
    (changeRanges selection changeRange).map (·.2.2.1)
      = List.range' 0 selection.ranges.length := by
  unfold changeRanges
  rw [List.map_map]
  exact List.zipIdx_map_snd 0 selection.ranges

theorem keptIndices_lt :
    (keptIndices selection changeRange).Pairwise (· < ·) := by
  have hsub := (applied_sublist (changeRanges selection changeRange)
    0).map (·.2.2.1)
  rw [changeRanges_indices] at hsub
  exact (List.pairwise_lt_range' (s := 0)).sublist hsub

/-- The first change is not ignored. -/
theorem zero_mem_keptIndices : 0 ∈ keptIndices selection changeRange := by
  obtain ⟨ranges, primaryIndex, hlt⟩ := selection
  cases ranges with
  | nil => exact absurd hlt (Nat.not_lt_zero _)
  | cons r rest =>
      unfold keptIndices kept changeRanges
      rw [List.zipIdx_cons, List.map_cons, applied,
        if_neg (Nat.not_lt_zero _), List.map_cons]
      exact List.mem_cons_self

/-- The index at which the primary range is looked up. -/
def lookedUp (primaryIndex : Nat) (ks : List Nat) : Nat :=
  (if primaryIndex ∈ ks then some primaryIndex
    else if ks.any (primaryIndex < ·) then inFront primaryIndex ks
    else none).getD 0

/-- The changes are always applied as they should be; what is left to
make is the selection. -/
theorem changeBySelection_eq (hfit : Fit doc selection changeRange) :
    ∃ tx, tx.apply doc = .ok (true, replaceAll doc 0
        (replaced createTendril (kept selection changeRange) 0))
      ∧ changeBySelectionIgnoreOverlapping doc selection changeRange
          createTendril
        = (Selection.new ((kept selection changeRange).map (·.2.2.2))
            (lookedUp selection.primaryIndex
              (keptIndices selection changeRange))).map fun new =>
            (tx, new) := by
  have hwithin : ∀ x ∈ changeRanges selection changeRange,
      x.1 ≤ x.2.1 ∧ x.2.1 ≤ doc.length := by
    intro x hx
    obtain ⟨y, hy, rfl⟩ := List.mem_map.mp hx
    exact hfit y hy
  have hord : Ordered doc.length 0 (replaced createTendril
      (applied (changeRanges selection changeRange) 0) 0) :=
    ordered_replaced (Nat.zero_le doc.length) hwithin
  obtain ⟨c, hc, hcarries⟩ := ChangeSet.fromChanges_carries hord
  have htx : (ofChanges c).Carries doc _ := hcarries
  refine ⟨ofChanges c, htx.turns, ?_⟩
  have hlt : ((kept selection changeRange).map (·.2.2)).Pairwise
      fun a b => a.1 < b.1 :=
    List.pairwise_map.mpr (List.pairwise_map.mp keptIndices_lt)
  obtain ⟨hranges, -, hprimary⟩ := collect_spec
    (p := selection.primaryIndex) hlt
  rw [List.map_map] at hranges hprimary
  have hloop := filterOverlapping_process selection.primaryIndex
    createTendril (changeRanges selection changeRange) 0 ⟨none, none, []⟩
  have hchange : change doc (replaced createTendril
      (applied (changeRanges selection changeRange) 0) 0)
      = .ok (ofChanges c) := by
    unfold change
    rw [hc]
    rfl
  have hignore : changeIgnoreOverlapping doc
      (changeRanges selection changeRange)
      (Kept.process selection.primaryIndex createTendril) ⟨none, none, []⟩
      = .ok (ofChanges c, collect selection.primaryIndex
          ((kept selection changeRange).map (·.2.2)) ⟨none, none, []⟩) := by
    unfold changeIgnoreOverlapping
    rw [hloop]
    dsimp only [List.length_nil]
    rw [hchange]
    rfl
  unfold changeBySelectionIgnoreOverlapping
  rw [hignore]
  have hlooked : (collect selection.primaryIndex
      ((kept selection changeRange).map (·.2.2))
      ⟨none, none, []⟩).newPrimaryIdx.getD 0
      = lookedUp selection.primaryIndex
          (keptIndices selection changeRange) :=
    congrArg (·.getD 0) hprimary
  have hkept : (collect selection.primaryIndex
      ((kept selection changeRange).map (·.2.2)) ⟨none, none, []⟩).ranges
      = (kept selection changeRange).map (·.2.2.2) := hranges
  rw [ok_bind]
  dsimp only
  rw [hlooked, hkept]
  cases Selection.new _ _ <;> rfl

/-- Looked up among the kept ranges, the index is one of theirs. -/
theorem lookedUp_lt (h : Aligned selection.primaryIndex
      (keptIndices selection changeRange)) :
    lookedUp selection.primaryIndex (keptIndices selection changeRange)
      < (keptIndices selection changeRange).length := by
  have hzero : 0 ∈ keptIndices selection changeRange :=
    zero_mem_keptIndices
  have hlt : (keptIndices selection changeRange).Pairwise (· < ·) :=
    keptIndices_lt
  obtain ⟨hkept, hnot⟩ := h
  generalize keptIndices selection changeRange = ks at hzero hlt hkept hnot
  generalize selection.primaryIndex = p at hkept hnot
  unfold lookedUp
  by_cases hp : p ∈ ks
  · rw [if_pos hp, Option.getD_some]
    have hget := (getElem?_self_iff (n := p) hlt).mpr fun i hi => by
      rcases Nat.eq_or_lt_of_le hi with rfl | hi
      · exact hp
      · exact hkept hp i hi
    exact (List.getElem?_eq_some_iff.mp hget).1
  · rw [if_neg hp]
    split
    · next hany =>
        obtain ⟨k, hk, hpk⟩ := List.any_eq_true.mp hany
        cases hfront : inFront p ks with
        | none => exact List.length_pos_of_mem hzero
        | some i => exact hnot hp ⟨k, hk, of_decide_eq_true hpk⟩ i hfront
    · exact List.length_pos_of_mem hzero

theorem new_of_lt {ranges : List Range} {i : Nat} (h : i < ranges.length) :
    Selection.new ranges i = .ok (Selection.normalize ⟨ranges, i, h⟩) := by
  unfold Selection.new
  rw [dif_pos h]

/-- The kept ranges of a normalized selection are normalized. -/
theorem normal_kept (h : Selection.Normal selection.ranges) :
    Selection.Normal ((kept selection changeRange).map (·.2.2.2)) := by
  have hsub := (applied_sublist (changeRanges selection changeRange)
    0).map (·.2.2.2)
  have hmap : (changeRanges selection changeRange).map (·.2.2.2)
      = selection.ranges := by
    unfold changeRanges
    rw [List.map_map]
    exact List.zipIdx_map_fst 0 selection.ranges
  rw [hmap] at hsub
  exact ⟨h.sorted.sublist hsub, h.apart.sublist hsub⟩

/-- Changes may overlap as they like when the index of the primary range
is one among the kept ranges too; with a normalized selection, only
then. -/
theorem ignore_overlapping_law (doc : Rope) (selection : Selection)
    (changeRange : Nat → Range → Nat × Nat)
    (createTendril : Nat → Nat → Nat → Option Tendril)
    (hfit : Fit doc selection changeRange) :
    (Aligned selection.primaryIndex (keptIndices selection changeRange) →
      ∃ tx new, changeBySelectionIgnoreOverlapping doc selection
          changeRange createTendril = .ok (tx, new)
        ∧ Follows doc selection changeRange createTendril tx new) ∧
    (Selection.Normal selection.ranges →
      (∃ tx new, changeBySelectionIgnoreOverlapping doc selection
          changeRange createTendril = .ok (tx, new)
        ∧ Follows doc selection changeRange createTendril tx new) →
      Aligned selection.primaryIndex
        (keptIndices selection changeRange)) := by
  obtain ⟨tx, happ, hrun⟩ := @changeBySelection_eq _ _ _ createTendril hfit
  have hlen : ((kept selection changeRange).map (·.2.2.2)).length
      = (keptIndices selection changeRange).length := by
    rw [List.length_map, keptIndices, List.length_map]
  have hlt : (keptIndices selection changeRange).Pairwise (· < ·) :=
    keptIndices_lt
  constructor
  · intro hal
    have hidx := lookedUp_lt hal
    rw [← hlen] at hidx
    rw [new_of_lt hidx] at hrun
    refine ⟨tx, _, hrun, happ, _, new_of_lt hidx, fun hp => ?_⟩
    rw [lookedUp, if_pos hp, Option.getD_some, getElem?_self_iff hlt]
    intro i hi
    rcases Nat.eq_or_lt_of_le hi with rfl | hi
    · exact hp
    · exact hal.1 hp i hi
  · rintro hnormal ⟨tx', new, hok, hfollows⟩
    obtain ⟨i, hi, hprimary⟩ := hfollows.made
    rw [hok] at hrun
    -- the code's index makes the selection, and so does the right one
    have hcode : Selection.new ((kept selection changeRange).map (·.2.2.2))
        (lookedUp selection.primaryIndex
          (keptIndices selection changeRange)) = .ok new := by
      cases hnew : Selection.new ((kept selection changeRange).map
          (·.2.2.2)) (lookedUp selection.primaryIndex
          (keptIndices selection changeRange)) with
      | error e =>
          rw [hnew] at hrun
          cases hrun
      | ok new' =>
          rw [hnew] at hrun
          injection hrun with hrun
          injection hrun with _ hrun
          rw [hrun]
    have hsame : ∀ j, Selection.new
        ((kept selection changeRange).map (·.2.2.2)) j = .ok new →
        j < (keptIndices selection changeRange).length
          ∧ new.primaryIndex = j := by
      intro j hj
      unfold Selection.new at hj
      split at hj
      · next hlt =>
          injection hj with hj
          rw [Selection.normalize_of_normal (normal_kept hnormal)] at hj
          exact ⟨hlen ▸ hlt, hj ▸ rfl⟩
      · cases hj
    obtain ⟨hcodelt, hcodeidx⟩ := hsame _ hcode
    obtain ⟨-, hidx⟩ := hsame _ hi
    have heq : lookedUp selection.primaryIndex
        (keptIndices selection changeRange) = i := hcodeidx.symm.trans hidx
    constructor
    · intro hp j hj
      rw [lookedUp, if_pos hp, Option.getD_some] at heq
      have hget := hprimary hp
      rw [← heq, getElem?_self_iff hlt] at hget
      exact hget j (Nat.le_of_lt hj)
    · rintro hp ⟨k, hk, hpk⟩ j hj
      have hany : (keptIndices selection changeRange).any
          (selection.primaryIndex < ·) :=
        List.any_eq_true.mpr ⟨k, hk, decide_eq_true hpk⟩
      rw [lookedUp, if_neg hp, if_pos hany, Option.mem_def.mp hj,
        Option.getD_some] at hcodelt
      exact hcodelt

/-- The second of three changes overlaps with the first and is ignored;
the first range is the primary one. -/
def threeRanges : Selection :=
  ⟨[.new 0 2, .new 2 4, .new 4 6], 0, by decide⟩

/-- Three ranges whose changes are these. -/
def changesAt (changes : List (Nat × Nat)) (n : Nat) (_ : Range) :
    Nat × Nat :=
  changes.getD n (0, 0)

theorem ignore_overlapping_law_primary :
    ∃ tx new, changeBySelectionIgnoreOverlapping ['a', 'b', 'c', 'd', 'e',
          'f'] threeRanges (changesAt [(0, 3), (2, 4), (4, 6)])
          (fun _ _ _ => none) = .ok (tx, new)
      ∧ Follows ['a', 'b', 'c', 'd', 'e', 'f'] threeRanges
          (changesAt [(0, 3), (2, 4), (4, 6)]) (fun _ _ _ => none) tx new :=
  (ignore_overlapping_law _ _ _ _ (by unfold Fit; decide)).1 (by
    unfold Aligned
    decide)

/-- With the last of the three as the primary range, its index is past
the two that are kept. -/
theorem not_ignore_overlapping_law_behind :
    let selection : Selection := ⟨threeRanges.ranges, 2, by decide⟩
    let changeRange := changesAt [(0, 3), (2, 4), (4, 6)]
    selection.primaryIndex ∈ keptIndices selection changeRange
      ∧ ¬ ∃ tx new, changeBySelectionIgnoreOverlapping
          ['a', 'b', 'c', 'd', 'e', 'f'] selection changeRange
          (fun _ _ _ => none) = .ok (tx, new) := by
  refine ⟨by decide, ?_⟩
  rintro ⟨tx, new, h⟩
  have hpanic : changeBySelectionIgnoreOverlapping
      ['a', 'b', 'c', 'd', 'e', 'f'] ⟨threeRanges.ranges, 2, by decide⟩
      (changesAt [(0, 3), (2, 4), (4, 6)]) (fun _ _ _ => none)
      = .error .assertion := rfl
  cases hpanic.symm.trans h

end Law

end Transaction

end Zmax
