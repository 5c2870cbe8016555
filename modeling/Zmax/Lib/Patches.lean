/-
Patches of a list: a range of it, and what comes in its place.

# All at once, or one after the other

`simultaneous` says what patches make of a list without any order of work:
at each place stand the new items of the patches that begin there, in their
order, and then the item of the list unless a patch covers it. `inTurn`
copies the list from patch to patch, which is the same for patches that are
in order (`inTurn_eq`).

# Dropping what overlaps

`kept` goes along patches and passes over those that begin before the last
one kept ends. Of patches that are apart and sorted by their begin, only
empty ranges at the begin of a range before them are `lost`, so that with
all their items in place nothing else changes: `simultaneous_kept` says
exactly when.
-/
import Mathlib.Algebra.Order.BigOperators.Group.List
import Mathlib.Algebra.Order.Group.Nat
import Mathlib.Data.List.Basic
import Mathlib.Data.List.Range
import Zmax.Lib.Splice

namespace Patches

open Splice (flatMap_getElem? range'_split)

/-- A range of a list, and the items in its place. -/
structure Patch (α : Type*) where
  start : Nat
  stop : Nat
  new : List α
  deriving DecidableEq, Repr

variable {α : Type*} {t : List α} {ps : List (Patch α)} {p : Nat}

/-- What patches put at a place, in their order. -/
def newAt (ps : List (Patch α)) (p : Nat) : List α :=
  ps.flatMap fun s => if s.start = p then s.new else []

/-- A patch takes the item at a place away. -/
def Covers (ps : List (Patch α)) (p : Nat) : Prop :=
  ∃ s ∈ ps, s.start ≤ p ∧ p < s.stop

instance (ps : List (Patch α)) (p : Nat) : Decidable (Covers ps p) :=
  inferInstanceAs (Decidable (∃ s ∈ ps, s.start ≤ p ∧ p < s.stop))

/-- What stands at a place of the patched list. -/
def piece (t : List α) (ps : List (Patch α)) (p : Nat) : List α :=
  newAt ps p ++ if Covers ps p then [] else t[p]?.toList

/-- A list with all patches applied at once. -/
def simultaneous (t : List α) (ps : List (Patch α)) : List α :=
  (List.range (t.length + 1)).flatMap (piece t ps)

/-- A list from a place on, copied from patch to patch. -/
def inTurn (t : List α) : Nat → List (Patch α) → List α
  | pos, [] => t.drop pos
  | pos, s :: ps =>
      (t.drop pos).take (s.start - pos) ++ s.new ++ inTurn t s.stop ps

/-- Patches between two places, each after the one before. -/
def Ordered (len : Nat) : Nat → List (Patch α) → Prop
  | last, [] => last ≤ len
  | last, s :: ps => last ≤ s.start ∧ s.start ≤ s.stop ∧ Ordered len s.stop ps

-- == in order

attribute [grind =] inTurn

variable {last len : Nat} {s : Patch α}

theorem Ordered.le (h : Ordered len last ps) : last ≤ len := by
  induction ps generalizing last with
  | nil => exact h
  | cons s ps ih =>
      obtain ⟨h₁, h₂, hrest⟩ := h
      exact h₁.trans (h₂.trans (ih hrest))

/-- Patches from a place on begin there or later. -/
theorem Ordered.le_start (h : Ordered len last ps) :
    ∀ s ∈ ps, last ≤ s.start := by
  induction ps generalizing last with
  | nil => simp
  | cons s ps ih =>
      obtain ⟨h₁, h₂, hrest⟩ := h
      refine List.forall_mem_cons.mpr ⟨h₁, fun s' hs' => ?_⟩
      exact h₁.trans (h₂.trans (ih hrest s' hs'))

theorem newAt_cons (s : Patch α) (ps : List (Patch α)) (p : Nat) :
    newAt (s :: ps) p = (if s.start = p then s.new else []) ++ newAt ps p :=
  List.flatMap_cons

theorem covers_cons :
    Covers (s :: ps) p ↔ s.start ≤ p ∧ p < s.stop ∨ Covers ps p := by
  simp [Covers]

/-- Before the patches, the list is as it was. -/
theorem piece_before (h : ∀ s ∈ ps, p < s.start) :
    piece t ps p = t[p]?.toList := by
  have hnew : newAt ps p = [] := by
    refine List.flatMap_eq_nil_iff.mpr fun s hs => if_neg ?_
    exact (Nat.ne_of_lt (h s hs)).symm
  have hnot : ¬ Covers ps p := by
    rintro ⟨s, hs, hle, -⟩
    have := h s hs
    omega
  rw [piece, hnew, if_neg hnot, List.nil_append]

/-- Inside the first patch, there is nothing. -/
theorem piece_inside (hs : s.start < p) (hp : p < s.stop)
    (h : ∀ s' ∈ ps, s.stop ≤ s'.start) : piece t (s :: ps) p = [] := by
  have hnew : newAt ps p = [] := by
    refine List.flatMap_eq_nil_iff.mpr fun s' hs' => if_neg ?_
    have := h s' hs'
    omega
  rw [piece, newAt_cons, if_neg (by omega), hnew,
    if_pos (covers_cons.mpr (.inl ⟨hs.le, hp⟩))]
  rfl

/-- Past the first patch, only the others matter. -/
theorem piece_after (hp : s.stop ≤ p) (hne : s.start ≠ p) :
    piece t (s :: ps) p = piece t ps p := by
  have hcovers : Covers (s :: ps) p ↔ Covers ps p := by
    rw [covers_cons]
    exact ⟨fun h => h.resolve_left (by omega), .inr⟩
  simp only [piece, newAt_cons, if_neg hne, hcovers, List.nil_append]

theorem flatMap_congr_range {f g : Nat → List α} {pos n : Nat}
    (h : ∀ p, pos ≤ p → p < pos + n → f p = g p) :
    (List.range' pos n).flatMap f = (List.range' pos n).flatMap g := by
  refine List.flatMap_congr fun p hp => ?_
  obtain ⟨h₁, h₂⟩ := List.mem_range'_1.mp hp
  exact h p h₁ h₂

/-- The first patch and what follows it. -/
theorem flatMap_first (hle : s.start ≤ s.stop) (hstop : s.stop ≤ t.length)
    (hps : ∀ s' ∈ ps, s.stop ≤ s'.start) :
    (List.range' s.start (t.length + 1 - s.start)).flatMap
        (piece t (s :: ps)) =
      s.new ++ (List.range' s.stop (t.length + 1 - s.stop)).flatMap
        (piece t ps) := by
  by_cases hempty : s.start = s.stop
  · -- an insert shares its place with what comes next
    rw [show t.length + 1 - s.start = t.length - s.start + 1 from by omega,
      show t.length + 1 - s.stop = t.length - s.start + 1 from by omega,
      ← hempty, List.range'_succ, List.flatMap_cons, List.flatMap_cons,
      ← List.append_assoc]
    have hrest : (List.range' (s.start + 1) (t.length - s.start)).flatMap
        (piece t (s :: ps)) = (List.range' (s.start + 1)
          (t.length - s.start)).flatMap (piece t ps) :=
      flatMap_congr_range fun p hp _ =>
        piece_after (by omega) (by omega)
    have hcovers : Covers (s :: ps) s.start ↔ Covers ps s.start := by
      rw [covers_cons]
      exact ⟨fun h => h.resolve_left (by omega), .inr⟩
    rw [hrest]
    simp only [piece, newAt_cons, hcovers, if_true, List.append_assoc]
  · have hcut : List.range' s.start (t.length + 1 - s.start) =
        s.start :: List.range' (s.start + 1) (s.stop - (s.start + 1)) ++
          List.range' s.stop (t.length + 1 - s.stop) := by
      rw [range'_split hle (by omega), ← List.range'_succ]
      congr 2
      omega
    have hinside : (List.range' (s.start + 1)
        (s.stop - (s.start + 1))).flatMap (piece t (s :: ps)) = [] :=
      List.flatMap_eq_nil_iff.mpr fun p hp => by
        obtain ⟨h₁, h₂⟩ := List.mem_range'_1.mp hp
        exact piece_inside (by omega) (by omega) hps
    have hafter : (List.range' s.stop (t.length + 1 - s.stop)).flatMap
        (piece t (s :: ps)) = (List.range' s.stop
          (t.length + 1 - s.stop)).flatMap (piece t ps) :=
      flatMap_congr_range fun p hp _ => piece_after hp (by omega)
    have hnew : newAt ps s.start = [] := by
      refine List.flatMap_eq_nil_iff.mpr fun s' hs' => if_neg ?_
      have := hps s' hs'
      omega
    rw [hcut, List.flatMap_append, List.flatMap_cons, hinside, hafter, piece,
      newAt_cons, hnew,
      if_pos (covers_cons.mpr (.inl ⟨Nat.le_refl _, by omega⟩))]
    simp

/-- Copying from patch to patch applies them all at once. -/
theorem inTurn_eq {pos : Nat} (h : Ordered t.length pos ps) :
    inTurn t pos ps =
      (List.range' pos (t.length + 1 - pos)).flatMap (piece t ps) := by
  induction ps generalizing pos with
  | nil =>
      rw [inTurn, flatMap_congr_range
        (g := fun p => t[p]?.toList) fun p _ _ => piece_before (by simp),
        flatMap_getElem?, List.take_of_length_le]
      rw [List.length_drop]
      omega
  | cons s ps ih =>
      obtain ⟨h₁, h₂, hrest⟩ := h
      have hstop := hrest.le
      have hbefore : (List.range' pos (s.start - pos)).flatMap
          (piece t (s :: ps)) = (t.drop pos).take (s.start - pos) := by
        rw [← flatMap_getElem?]
        refine flatMap_congr_range fun p _ hp => piece_before ?_
        refine List.forall_mem_cons.mpr ⟨by omega, fun s' hs' => ?_⟩
        have := hrest.le_start s' hs'
        omega
      rw [inTurn, ih hrest, range'_split h₁ (by omega), List.flatMap_append,
        hbefore, flatMap_first h₂ hrest.le hrest.le_start, List.append_assoc]

theorem inTurn_eq_simultaneous (h : Ordered t.length 0 ps) :
    inTurn t 0 ps = simultaneous t ps := by
  rw [inTurn_eq h, simultaneous, List.range_eq_range']
  rfl

-- == overlaps

/-- The patches that begin where the last one kept ends, or later. -/
def kept : Nat → List (Patch α) → List (Patch α)
  | _, [] => []
  | last, s :: ps =>
      if s.start ≤ s.stop ∧ last ≤ s.start then s :: kept s.stop ps
      else kept last ps

/-- The patches that are not kept. -/
def lost : Nat → List (Patch α) → List (Patch α)
  | _, [] => []
  | last, s :: ps =>
      if s.start ≤ s.stop ∧ last ≤ s.start then lost s.stop ps
      else s :: lost last ps

attribute [grind =] kept lost

theorem kept_cons_of_fits (h : s.start ≤ s.stop ∧ last ≤ s.start) :
    kept last (s :: ps) = s :: kept s.stop ps := if_pos h

theorem kept_cons_of_not (h : ¬ (s.start ≤ s.stop ∧ last ≤ s.start)) :
    kept last (s :: ps) = kept last ps := if_neg h

theorem kept_ordered (hlast : last ≤ len) (h : ∀ s ∈ ps, s.stop ≤ len) :
    Ordered len last (kept last ps) := by
  induction ps generalizing last with
  | nil => exact hlast
  | cons s ps ih =>
      obtain ⟨hs, hps⟩ := List.forall_mem_cons.mp h
      by_cases hfits : s.start ≤ s.stop ∧ last ≤ s.start
      · rw [kept_cons_of_fits hfits]
        exact ⟨hfits.2, hfits.1, ih hs hps⟩
      · rw [kept_cons_of_not hfits]
        exact ih hlast hps

theorem mem_kept_or_lost (last : Nat) :
    s ∈ ps ↔ s ∈ kept last ps ∨ s ∈ lost last ps := by
  induction ps generalizing last with
  | nil => simp [kept, lost]
  | cons s' ps ih =>
      rw [kept, lost]
      by_cases hfits : s'.start ≤ s'.stop ∧ last ≤ s'.start
      · rw [if_pos hfits, if_pos hfits, List.mem_cons, List.mem_cons,
          ih s'.stop, or_assoc]
      · rw [if_neg hfits, if_neg hfits, List.mem_cons, List.mem_cons, ih last,
          or_left_comm]

/-- At every place, nothing new is kept and lost. -/
theorem length_newAt (ps : List (Patch α)) (last p : Nat) :
    (newAt (kept last ps) p).length + (newAt (lost last ps) p).length =
      (newAt ps p).length := by
  induction ps generalizing last with
  | nil => rfl
  | cons s ps ih =>
      rw [kept, lost]
      by_cases hfits : s.start ≤ s.stop ∧ last ≤ s.start
      · have := ih s.stop
        rw [if_pos hfits, if_pos hfits]
        simp only [newAt_cons, List.length_append]
        omega
      · have := ih last
        rw [if_neg hfits, if_neg hfits]
        simp only [newAt_cons, List.length_append]
        omega

/-- Without anything new in what is lost, it is as if it was kept. -/
theorem newAt_kept (h : ∀ s ∈ lost last ps, s.new = []) (p : Nat) :
    newAt (kept last ps) p = newAt ps p := by
  induction ps generalizing last with
  | nil => rfl
  | cons s ps ih =>
      rw [lost] at h
      by_cases hfits : s.start ≤ s.stop ∧ last ≤ s.start
      · rw [if_pos hfits] at h
        rw [kept_cons_of_fits hfits, newAt_cons, newAt_cons, ih h]
      · rw [if_neg hfits] at h
        rw [kept_cons_of_not hfits]
        obtain ⟨hs, hps⟩ := List.forall_mem_cons.mp h
        rw [newAt_cons, ih hps, hs, ite_self, List.nil_append]

-- == apart

/-- Ranges that have nothing in common. -/
def Apart (s s' : Patch α) : Prop := s.stop ≤ s'.start ∨ s'.stop ≤ s.start

instance (s s' : Patch α) : Decidable (Apart s s') :=
  inferInstanceAs (Decidable (s.stop ≤ s'.start ∨ s'.stop ≤ s.start))

/-- Patches of ranges that are apart, sorted by where they begin. -/
structure Sorted (ps : List (Patch α)) : Prop where
  proper : ∀ s ∈ ps, s.start ≤ s.stop
  apart : ps.Pairwise Apart
  sorted : ps.Pairwise fun s s' => s.start ≤ s'.start

/-- No patch puts something at the begin of a range before it. -/
def NoLateInsert (ps : List (Patch α)) : Prop :=
  ps.Pairwise fun s s' => s.start < s.stop → s'.start = s.start → s'.new = []

/-- What begins before `last` is empty. -/
def EmptyBefore (last : Nat) (ps : List (Patch α)) : Prop :=
  ∀ s ∈ ps, s.start < last → s.start = s.stop

theorem Sorted.tail (h : Sorted (s :: ps)) : Sorted ps where
  proper := (List.forall_mem_cons.mp h.proper).2
  apart := (List.pairwise_cons.mp h.apart).2
  sorted := (List.pairwise_cons.mp h.sorted).2

/-- What begins before the end of the first range begins where that does,
and is empty. -/
theorem Sorted.begins {s' : Patch α} (h : Sorted (s :: ps)) (hs' : s' ∈ ps)
    (hlt : s'.start < s.stop) : s'.start = s.start ∧ s'.start = s'.stop := by
  have h₁ := h.proper s' (List.mem_cons_of_mem _ hs')
  have h₂ := (List.pairwise_cons.mp h.sorted).1 s' hs'
  have h₃ := (List.pairwise_cons.mp h.apart).1 s' hs'
  unfold Apart at h₃
  omega

theorem Sorted.emptyBefore (h : Sorted (s :: ps)) :
    EmptyBefore s.stop ps := fun _ hs' hlt => (h.begins hs' hlt).2

/-- Only empty ranges are lost. -/
theorem lost_empty (h : Sorted ps) (hempty : EmptyBefore last ps) :
    ∀ s ∈ lost last ps, s.start = s.stop := by
  induction ps generalizing last with
  | nil => simp [lost]
  | cons s ps ih =>
      obtain ⟨hs, hps⟩ := List.forall_mem_cons.mp hempty
      rw [lost]
      by_cases hlast : last ≤ s.start
      · rw [if_pos ⟨h.proper s List.mem_cons_self, hlast⟩]
        exact ih h.tail h.emptyBefore
      · rw [if_neg (by omega)]
        exact List.forall_mem_cons.mpr ⟨hs (by omega), ih h.tail hps⟩

/-- Nothing new is lost, just when no patch is a late insert. -/
theorem lost_new (h : Sorted ps) (hempty : EmptyBefore last ps) :
    (∀ s ∈ lost last ps, s.new = []) ↔
      NoLateInsert ps ∧ ∀ s ∈ ps, s.start < last → s.new = [] := by
  induction ps generalizing last with
  | nil => simp [lost, NoLateInsert]
  | cons s ps ih =>
      obtain ⟨hs, hps⟩ := List.forall_mem_cons.mp hempty
      rw [lost, NoLateInsert, List.pairwise_cons, List.forall_mem_cons]
      by_cases hlast : last ≤ s.start
      · rw [if_pos ⟨h.proper s List.mem_cons_self, hlast⟩,
          ih h.tail h.emptyBefore]
        constructor
        · rintro ⟨hlate, hnew⟩
          refine ⟨⟨fun s' hs' hlt heq => hnew s' hs' (by omega), hlate⟩,
            fun hlt => absurd hlt (by omega), fun s' hs' hlt => ?_⟩
          have := (List.pairwise_cons.mp h.sorted).1 s' hs'
          omega
        · rintro ⟨⟨hfirst, hlate⟩, -⟩
          refine ⟨hlate, fun s' hs' hlt => ?_⟩
          have heq := (h.begins hs' hlt).1
          exact hfirst s' hs' (by omega) heq
      · rw [if_neg (by omega), List.forall_mem_cons, ih h.tail hps]
        have hsize := hs (by omega)
        constructor
        · rintro ⟨hnew, hlate, hrest⟩
          exact ⟨⟨fun s' hs' hlt => absurd hlt (by omega), hlate⟩,
            fun _ => hnew, hrest⟩
        · rintro ⟨⟨-, hlate⟩, hnew, hrest⟩
          exact ⟨hnew (by omega), hlate, hrest⟩

-- == what is left of a list

theorem covers_kept (h : Sorted ps) : Covers (kept 0 ps) p ↔ Covers ps p := by
  constructor
  · rintro ⟨s, hs, hp⟩
    exact ⟨s, (mem_kept_or_lost 0).mpr (.inl hs), hp⟩
  · rintro ⟨s, hs, hp⟩
    rcases (mem_kept_or_lost 0).mp hs with hs | hs
    · exact ⟨s, hs, hp⟩
    · have := lost_empty h (fun s _ hlt => absurd hlt (by omega)) s hs
      omega

/-- Concatenations of pieces of which none is longer than the other's are
equal piece by piece. -/
theorem flatMap_eq_iff {β : Type*} {xs : List β} {f g : β → List α}
    (h : ∀ x ∈ xs, (f x).length ≤ (g x).length) :
    xs.flatMap f = xs.flatMap g ↔ ∀ x ∈ xs, f x = g x := by
  refine ⟨fun heq => ?_, List.flatMap_congr⟩
  induction xs with
  | nil => simp
  | cons x xs ih =>
      obtain ⟨hx, hxs⟩ := List.forall_mem_cons.mp h
      rw [List.flatMap_cons, List.flatMap_cons] at heq
      have hrest : (xs.flatMap f).length ≤ (xs.flatMap g).length := by
        rw [List.length_flatMap, List.length_flatMap]
        exact List.sum_le_sum hxs
      have hlen := congrArg List.length heq
      rw [List.length_append, List.length_append] at hlen
      obtain ⟨h₁, h₂⟩ := List.append_inj heq (by omega)
      exact List.forall_mem_cons.mpr ⟨h₁, ih hxs h₂⟩

/-- Patches that are apart, some of them lost in order: the list is as with
all of them if nothing new is lost and the order changes nothing. -/
theorem simultaneous_kept {sorted : List (Patch α)} (h : Sorted sorted)
    (hperm : sorted.Perm ps) (hbound : ∀ s ∈ ps, s.start ≤ t.length) :
    simultaneous t (kept 0 sorted) = simultaneous t ps ↔
      NoLateInsert sorted ∧ ∀ p, newAt sorted p = newAt ps p := by
  have hempty : EmptyBefore 0 sorted := fun s _ hlt => absurd hlt (by omega)
  have hlost := lost_new h hempty
  have hcovers : ∀ p, Covers (kept 0 sorted) p ↔ Covers ps p := by
    intro p
    rw [covers_kept h]
    unfold Covers
    simp only [hperm.mem_iff]
  have hsame : ∀ p, (newAt sorted p).length = (newAt ps p).length :=
    fun p => (hperm.flatMap_right _).length_eq
  have hlength : ∀ p, (newAt (kept 0 sorted) p).length ≤
      (newAt ps p).length := by
    intro p
    have := length_newAt sorted 0 p
    have := hsame p
    omega
  -- equal texts are equal place by place
  have hpieces : simultaneous t (kept 0 sorted) = simultaneous t ps ↔
      ∀ p ∈ List.range (t.length + 1),
        newAt (kept 0 sorted) p = newAt ps p := by
    unfold simultaneous
    rw [flatMap_eq_iff]
    · simp only [piece, hcovers, List.append_left_inj]
    · intro p _
      simp only [piece, hcovers, List.length_append]
      exact Nat.add_le_add_right (hlength p) _
  rw [hpieces]
  constructor
  · intro hplaces
    have hnone : ∀ s ∈ lost 0 sorted, s.new = [] := by
      intro s hs
      have hmem := (mem_kept_or_lost 0).mpr (.inr hs)
      have hle := hbound s (hperm.mem_iff.mp hmem)
      have hplace := hplaces s.start (by simp; omega)
      have hcount := length_newAt sorted 0 s.start
      rw [hplace, hsame] at hcount
      have hnil : newAt (lost 0 sorted) s.start = [] :=
        List.eq_nil_of_length_eq_zero (by omega)
      have := List.flatMap_eq_nil_iff.mp hnil s hs
      rwa [if_pos rfl] at this
    refine ⟨(hlost.mp hnone).1, fun p => ?_⟩
    by_cases hp : p < t.length + 1
    · rw [← newAt_kept hnone]
      exact hplaces p (List.mem_range.mpr hp)
    · have hnil : newAt ps p = [] :=
        List.flatMap_eq_nil_iff.mpr fun s hs => if_neg (by
          have := hbound s hs
          omega)
      rw [hnil]
      exact List.eq_nil_of_length_eq_zero (by rw [hsame, hnil]; rfl)
  · rintro ⟨hlate, horder⟩ p -
    rw [newAt_kept (hlost.mpr ⟨hlate, fun _ _ hlt => absurd hlt (by omega)⟩),
      horder]

end Patches
