/-
Selections within a text: which operations keep their positions there,
and which succeed on them.

`ensure_invariants` is where every selection is checked: what it returns
lies within the text (`ensureInvariants_within`), and it returns whenever
what it is given does (`ensureInvariants_ok`). Mapping takes a selection
within the old text to one within the new text (`map_ok`).
-/
import Zmax.Core.Proofs.Invert
import Zmax.Core.Proofs.Positions
import Zmax.Core.Transaction

namespace Zmax

open Script

variable {U : Unicode}

-- == ranges

namespace Range

/-- Both ends are positions of a text of `n` chars. -/
def Within (n : Nat) (self : Range) : Prop :=
  self.anchor ≤ n ∧ self.head ≤ n

instance (n : Nat) (self : Range) : Decidable (self.Within n) :=
  inferInstanceAs (Decidable (_ ∧ _))

variable {n : Nat} {a b : Range}

theorem Within.mono {m : Nat} (h : a.Within n) (hle : n ≤ m) :
    a.Within m := ⟨h.1.trans hle, h.2.trans hle⟩

theorem Within.merge (ha : a.Within n) (hb : b.Within n) :
    (a.merge b).Within n := by
  obtain ⟨ha₁, ha₂⟩ := ha
  obtain ⟨hb₁, hb₂⟩ := hb
  unfold Range.merge Within start stop
  split <;> dsimp only <;> omega

theorem Within.updated {first second : Nat} (h₁ : first ≤ n)
    (h₂ : second ≤ n) (r : Range) : (r.updated first second).Within n := by
  unfold Range.updated
  split
  · exact ⟨h₁, h₂⟩
  · exact ⟨h₂, h₁⟩

/-- Every range hands out two positions. -/
theorem length_positions (r : Range) : r.positions.length = 2 := by
  unfold positions
  split
  · rfl
  · split <;> rfl

/-- The positions of a range are its ends. -/
theorem Within.positions (h : a.Within n) :
    ∀ x ∈ a.positions, x.1 ≤ n := by
  obtain ⟨h₁, h₂⟩ := h
  unfold Range.positions
  split
  · simp only [List.mem_cons, List.not_mem_nil, or_false, forall_eq_or_imp,
      forall_eq]
    exact ⟨h₁, h₂⟩
  · split
    · simp only [List.mem_cons, List.not_mem_nil, or_false,
        forall_eq_or_imp, forall_eq]
      exact ⟨h₁, h₂⟩
    · simp only [List.mem_cons, List.not_mem_nil, or_false,
        forall_eq_or_imp, forall_eq]
      exact ⟨h₂, h₁⟩

/-- Whatever comes out of the alignment is within the text. -/
theorem graphemeAligned_within {slice : Rope}
    (h : a.graphemeAligned U slice = .ok b) : b.Within slice.length := by
  unfold graphemeAligned at h
  dsimp only at h
  split at h
  · obtain ⟨pos, hpos, h⟩ := bind_eq_ok.mp h
    injection h with h
    subst h
    exact ⟨ensureGraphemeBoundaryPrev_le hpos,
      ensureGraphemeBoundaryPrev_le hpos⟩
  · split at h
    · obtain ⟨x, hx, h⟩ := bind_eq_ok.mp h
      obtain ⟨y, hy, h⟩ := bind_eq_ok.mp h
      injection h with h
      subst h
      exact ⟨ensureGraphemeBoundaryPrev_le hx,
        ensureGraphemeBoundaryNext_le hy⟩
    · obtain ⟨x, hx, h⟩ := bind_eq_ok.mp h
      obtain ⟨y, hy, h⟩ := bind_eq_ok.mp h
      injection h with h
      subst h
      exact ⟨ensureGraphemeBoundaryNext_le hx,
        ensureGraphemeBoundaryPrev_le hy⟩

/-- A range within the text can be aligned. -/
theorem graphemeAligned_ok {slice : Rope} (h : a.Within slice.length) :
    ∃ b, a.graphemeAligned U slice = .ok b := by
  obtain ⟨p, hp⟩ := @ensureGraphemeBoundaryPrev_ok U slice _ h.1
  obtain ⟨q, hq⟩ := @ensureGraphemeBoundaryNext_ok U slice _ h.2
  obtain ⟨p', hp'⟩ := @ensureGraphemeBoundaryNext_ok U slice _ h.1
  obtain ⟨q', hq'⟩ := @ensureGraphemeBoundaryPrev_ok U slice _ h.2
  unfold graphemeAligned
  split
  · rw [hp]
    exact ⟨_, rfl⟩
  · split
    · rw [hp, ok_bind, hq]
      exact ⟨_, rfl⟩
    · rw [hp', ok_bind, hq']
      exact ⟨_, rfl⟩

/-- A range within the text can be made a char wide, and stays there. -/
theorem minWidth1_ok {slice : Rope} (h : a.Within slice.length) :
    ∃ b, a.minWidth1 U slice = .ok b ∧ b.Within slice.length := by
  unfold minWidth1
  split
  · obtain ⟨j, hj⟩ := @nextGraphemeBoundary_ok U slice _ h.2
    rw [hj]
    exact ⟨_, rfl, h.1, nextGraphemeBoundary_le hj⟩
  · exact ⟨a, rfl, h⟩

end Range

-- == selections

namespace Selection

/-- Every range is within a text of `n` chars. -/
def Within (n : Nat) (self : Selection) : Prop :=
  ∀ r ∈ self.ranges, r.Within n

instance (n : Nat) (self : Selection) : Decidable (self.Within n) :=
  inferInstanceAs (Decidable (∀ r ∈ self.ranges, r.Within n))

variable {n : Nat} {s s' : Selection}

theorem Within.mono {m : Nat} (h : s.Within n) (hle : n ≤ m) :
    s.Within m := fun r hr => (h r hr).mono hle

private theorem mergeOverlaps_within {rest : List Range} :
    ∀ {prev primary : Range}, (∀ r ∈ prev :: rest, r.Within n) →
      ∀ r ∈ (mergeOverlaps prev primary rest).1, r.Within n := by
  induction rest with
  | nil =>
      intro prev primary h
      exact h
  | cons curr rest ih =>
      intro prev primary h
      obtain ⟨hprev, hrest⟩ := List.forall_mem_cons.mp h
      obtain ⟨hcurr, hrest'⟩ := List.forall_mem_cons.mp hrest
      rw [mergeOverlaps]
      split
      · exact ih (List.forall_mem_cons.mpr ⟨hcurr.merge hprev, hrest'⟩)
      · exact List.forall_mem_cons.mpr ⟨hprev, ih hrest⟩

theorem normalize_within (h : s.Within n) : s.normalize.Within n := by
  unfold normalize
  split
  · exact h
  · show ∀ r ∈ (mergeSorted _ _).1, r.Within n
    have hsorted : ∀ r ∈ s.ranges.mergeSort startLE, r.Within n :=
      fun r hr => h r (List.mem_mergeSort.mp hr)
    cases hcase : s.ranges.mergeSort startLE with
    | nil =>
        intro r hr
        cases hr
    | cons first rest =>
        rw [hcase] at hsorted
        exact mergeOverlaps_within hsorted

theorem transform_within {f : Range → Result Range}
    (hf : ∀ r r', f r = .ok r' → r'.Within n)
    (h : s.transform f = .ok s') : s'.Within n := by
  unfold transform at h
  split at h
  · cases h
  · next ranges hranges =>
      injection h with h
      subst h
      refine normalize_within fun r' hr' => ?_
      obtain ⟨r, -, hr⟩ := exists_of_mapM hranges r' hr'
      exact hf r r' hr

theorem transform_ok {f : Range → Result Range}
    (h : ∀ r ∈ s.ranges, ∃ r', f r = .ok r') :
    ∃ s', s.transform f = .ok s' := by
  obtain ⟨ranges, hranges⟩ := mapM_ok h
  unfold transform
  split
  · next e he =>
      rw [hranges] at he
      cases he
  · exact ⟨_, rfl⟩

/-- A selection that meets the invariants of a text is within it. -/
theorem ensureInvariants_within {text : Rope}
    (h : s.ensureInvariants U text = .ok s') : s'.Within text.length := by
  unfold ensureInvariants at h
  obtain ⟨t, ht, h⟩ := bind_eq_ok.mp h
  injection h with h
  subst h
  refine normalize_within (transform_within (fun r r' hr => ?_) ht)
  obtain ⟨w, -, hr⟩ := bind_eq_ok.mp hr
  exact Range.graphemeAligned_within hr

/-- A selection within a text can be made to meet its invariants. -/
theorem ensureInvariants_ok {text : Rope} (h : s.Within text.length) :
    ∃ s', s.ensureInvariants U text = .ok s' := by
  obtain ⟨t, ht⟩ := @transform_ok s
    (fun r => do
      let r ← r.minWidth1 U text
      r.graphemeAligned U text) (by
    intro r hr
    obtain ⟨w, hw, hwithin⟩ := @Range.minWidth1_ok U r text (h r hr)
    obtain ⟨r', hr'⟩ := @Range.graphemeAligned_ok U w text hwithin
    exact ⟨r', by rw [hw, ok_bind, hr']⟩)
  refine ⟨t.normalize, ?_⟩
  unfold ensureInvariants
  rw [ht]
  rfl

-- == mapping

/-- Ranges whose ends were updated to positions of a text are within
it. -/
private theorem restore_within : ∀ {ranges : List Range} {out : List Nat},
    out.length = (ranges.flatMap Range.positions).length →
    (∀ x ∈ out, x ≤ n) → ∀ r ∈ restore ranges out, r.Within n := by
  intro ranges
  induction ranges with
  | nil =>
      intro out _ _ r hr
      rw [restore] at hr
      · cases hr
      · intro range ranges first second out h
        cases h
  | cons range ranges ih =>
      intro out hlen hout
      rw [List.flatMap_cons, List.length_append,
        Range.length_positions] at hlen
      obtain ⟨first, second, rest, rfl⟩ :
          ∃ first second rest, out = first :: second :: rest := by
        rcases out with _ | ⟨first, _ | ⟨second, rest⟩⟩
        · rw [List.length_nil] at hlen
          omega
        · rw [List.length_singleton] at hlen
          omega
        · exact ⟨first, second, rest, rfl⟩
      obtain ⟨hfirst, hout⟩ := List.forall_mem_cons.mp hout
      obtain ⟨hsecond, hout⟩ := List.forall_mem_cons.mp hout
      rw [restore]
      refine List.forall_mem_cons.mpr ⟨.updated hfirst hsecond range,
        ih ?_ hout⟩
      rw [List.length_cons, List.length_cons] at hlen
      omega

/-- A selection within a text maps to one within the text that changes
carry it to. -/
theorem map_ok {changes : ChangeSet} {t u : Rope}
    (hc : changes.Carries t u) (h : s.Within t.length) :
    ∃ s', s.map U changes = .ok s' ∧ s'.Within u.length := by
  unfold map mapNoNormalize
  by_cases he : changes.isEmpty
  · rw [if_pos he]
    refine ⟨s.normalize, rfl, ?_⟩
    rw [hc.unchanged he] at h
    exact normalize_within h
  · have hwf := hc.wellFormed he
    have hle : ∀ x ∈ s.ranges.flatMap Range.positions,
        x.1 ≤ oldLen changes.changes := by
      intro x hx
      obtain ⟨r, hr, hx⟩ := List.mem_flatMap.mp hx
      rw [hwf.old, hc.len]
      exact (h r hr).positions x hx
    obtain ⟨out, hout, hlen, hnew⟩ := @ChangeSet.updatePositions_le U _ _ hle
    rw [if_neg he, hout]
    refine ⟨_, rfl, normalize_within ?_⟩
    rw [hwf.new, hc.lenAfter] at hnew
    exact restore_within hlen hnew

end Selection

end Zmax
