/-
Change lists and change sets, there and back.

`from_changes` builds a change set from a list of (from, to,
replacement) over the old text, and `changes_iter` reads such a list off
a change set. `replaceAll` says what a change list means without any
change set: the old text with every range replaced at once.

Both directions go through the plain script of a change list,
`changesScript`. The builders receive it step by step
(`fromChanges_spec`), and the iterator yields a list whose plain script
is the operation list again, up to cutting and reordering steps
(`changesIterLoop_alike`), so what comes back rebuilds the same effect.
-/
import Zmax.Core.Proofs.Invert

namespace Zmax

open Script

-- == the meaning

/-- Sorted, non-overlapping ranges between `last` and `len`. -/
def Ordered (len : Nat) : Nat → List Change → Prop
  | last, [] => last ≤ len
  | last, (start, stop, _) :: rest =>
      last ≤ start ∧ start ≤ stop ∧ Ordered len stop rest

/-- What a change list makes of the part of `t` from `pos` on: every
range is replaced, everything else stays. -/
def replaceAll (t : Rope) : Nat → List Change → Rope
  | pos, [] => t.drop pos
  | pos, (start, stop, replacement) :: rest =>
      (t.drop pos).take (start - pos) ++ replacement.getD []
        ++ replaceAll t stop rest

/-- The plain script of a change list on a text of length `len`, from
`last` on. -/
def changesScript (len : Nat) : Nat → List Change → List Operation
  | last, [] => [.retain (len - last)]
  | last, (start, stop, replacement) :: rest =>
      .retain (start - last) :: .insert (replacement.getD [])
        :: .delete (stop - start) :: changesScript len stop rest

attribute [grind =] Ordered replaceAll changesScript

theorem Ordered.le {len : Nat} : ∀ {changes : List Change} {last : Nat},
    Ordered len last changes → last ≤ len := by
  intro changes
  induction changes with
  | nil => intro last h; exact h
  | cons change rest ih =>
      intro last h
      obtain ⟨h₁, h₂, hrest⟩ := h
      have := ih hrest
      omega

/-- The script of a change list consumes the rest of the text. -/
theorem oldLen_changesScript {len : Nat} :
    ∀ {changes : List Change} {last : Nat}, Ordered len last changes →
      oldLen (changesScript len last changes) = len - last := by
  intro changes
  induction changes with
  | nil =>
      intro last _
      rw [changesScript, oldLen_cons, oldLen_nil, Edit.old_retain,
        Nat.add_zero]
  | cons change rest ih =>
      intro last h
      obtain ⟨start, stop, replacement⟩ := change
      obtain ⟨h₁, h₂, hrest⟩ := h
      have hle := hrest.le
      rw [changesScript, oldLen_cons, oldLen_cons, oldLen_cons,
        Edit.old_retain, Edit.old_insert, Edit.old_delete, ih hrest]
      omega

/-- The script of a change list performs its replacements. -/
theorem run_changesScript (t : Rope) :
    ∀ {changes : List Change} {last : Nat}, Ordered t.length last changes →
      run (changesScript t.length last changes) (t.drop last)
        = replaceAll t last changes := by
  intro changes
  induction changes with
  | nil =>
      intro last _
      rw [changesScript, replaceAll, run_retain, run_nil,
        List.take_append_drop]
  | cons change rest ih =>
      intro last h
      obtain ⟨start, stop, replacement⟩ := change
      obtain ⟨h₁, h₂, hrest⟩ := h
      rw [changesScript, replaceAll, run_retain, run_insert, run_delete,
        List.drop_drop, List.drop_drop,
        show last + (start - last + (stop - start)) = stop from by omega,
        ih hrest, List.append_assoc]

-- == from a list

namespace ChangeSet

/-- The loop of `from_changes` feeds the builders with the script of the
list, its last retain excepted. -/
private theorem fromChangesLoop_spec (len : Nat) :
    ∀ {changes : List Change} {last : Nat} {cs : ChangeSet},
      Ordered len last changes →
      ∃ last' cs', fromChangesLoop changes last cs = .ok (last', cs')
        ∧ last' ≤ len
        ∧ Alike (cs'.changes ++ [.retain (len - last')])
            (cs.changes ++ changesScript len last changes) := by
  intro changes
  induction changes with
  | nil =>
      intro last cs h
      exact ⟨last, cs, rfl, h, .refl _⟩
  | cons change rest ih =>
      intro last cs h
      obtain ⟨start, stop, replacement⟩ := change
      obtain ⟨h₁, h₂, hrest⟩ := h
      -- the three builder calls of one change, as one step
      have hstep : ∀ cs₁ : ChangeSet, (∀ gs : List Operation,
          Alike (cs₁.changes ++ gs) (cs.changes ++ .retain (start - last)
            :: .insert (replacement.getD []) :: .delete (stop - start)
            :: gs)) →
          ∃ last' cs', fromChangesLoop rest stop cs₁ = .ok (last', cs')
            ∧ last' ≤ len
            ∧ Alike (cs'.changes ++ [.retain (len - last')])
                (cs.changes ++ changesScript len last
                  ((start, stop, replacement) :: rest)) := by
        intro cs₁ hcs₁
        obtain ⟨last', cs', hloop, hle, hal⟩ := @ih stop cs₁ hrest
        exact ⟨last', cs', hloop, hle, hal.trans (hcs₁ _)⟩
      have hretain : ∀ gs : List Operation,
          Alike ((cs.retain (start - last)).changes ++ gs)
            (cs.changes ++ .retain (start - last) :: gs) := by
        intro gs
        have := (retain_alike cs (start - last)).append_right gs
        rwa [List.append_assoc] at this
      rw [fromChangesLoop, checkedSub_of_le h₁, checkedSub_of_le h₂]
      simp only [h₁, h₂, decide_true, assert_true, ok_bind]
      cases replacement with
      | none =>
          refine hstep _ fun gs => ?_
          have hdel := (delete_alike (cs.retain (start - last))
            (stop - start)).append_right gs
          rw [List.append_assoc] at hdel
          refine hdel.trans ((hretain _).trans ?_)
          exact ((Alike.insert_nil _).symm.cons _).append_left _
      | some s =>
          refine hstep _ fun gs => ?_
          have hdel := (delete_alike ((cs.retain (start - last)).insert s)
            (stop - start)).append_right gs
          have hins := (insert_alike (cs.retain (start - last)) s).append_right
            (.delete (stop - start) :: gs)
          rw [List.append_assoc] at hdel hins
          exact hdel.trans (hins.trans (hretain _))

variable {changes : List Change} {t : Rope}

/-- An ordered list of changes builds a change set with the script of the
list for operations. -/
theorem fromChanges_spec (h : Ordered t.length 0 changes) :
    ∃ c, fromChanges t changes = .ok c ∧ c.WellFormed ∧ c.len = t.length
      ∧ Alike c.changes (changesScript t.length 0 changes) := by
  obtain ⟨last, cs, hloop, hle, hal⟩ :=
    @fromChangesLoop_spec t.length changes 0 withCapacity h
  have hc : fromChanges t changes = .ok (cs.retain (t.length - last)) := by
    rw [fromChanges, hloop]
    simp only [ok_bind, checkedSub_of_le hle]
    rfl
  have hwf := fromChanges_wellFormed hc
  have halike := (retain_alike cs (t.length - last)).trans hal
  refine ⟨_, hc, hwf, ?_, halike⟩
  rw [← hwf.old, halike.old]
  exact oldLen_changesScript h

/-- An ordered list of changes carries the text to what the list makes of
it. -/
theorem fromChanges_carries (h : Ordered t.length 0 changes) :
    ∃ c, fromChanges t changes = .ok c ∧
      c.Carries t (replaceAll t 0 changes) := by
  obtain ⟨c, hc, hwf, hlen, hal⟩ := fromChanges_spec h
  have hca := Valid.carries (.inl hwf) hlen
  have hrun := run_changesScript t h
  rw [List.drop_zero] at hrun
  rw [hal.run, hrun] at hca
  exact ⟨c, hc, hca⟩

/-- The loop of `from_changes` only gets through an ordered list. -/
private theorem ordered_of_loop {len : Nat} : ∀ {changes : List Change}
    {last : Nat} {cs : ChangeSet} {last' : Nat} {cs' : ChangeSet},
    fromChangesLoop changes last cs = .ok (last', cs') → last' ≤ len →
      Ordered len last changes
  | [], last, cs, last', cs', h, hle => by
      injection h with h
      injection h with h
      subst h
      exact hle
  | (start, stop, replacement) :: rest, last, cs, last', cs', h, hle => by
      obtain ⟨_, h₁, h⟩ := bind_eq_ok.mp h
      obtain ⟨_, h₂, h⟩ := bind_eq_ok.mp h
      obtain ⟨gap, -, h⟩ := bind_eq_ok.mp h
      obtain ⟨span, -, h⟩ := bind_eq_ok.mp h
      exact ⟨of_decide_eq_true (assert_eq_ok.mp h₁),
        of_decide_eq_true (assert_eq_ok.mp h₂), ordered_of_loop h hle⟩

/-- A list that builds a change set is ordered. -/
theorem ordered_of_fromChanges {c : ChangeSet}
    (h : fromChanges t changes = .ok c) : Ordered t.length 0 changes := by
  obtain ⟨⟨last, cs⟩, hloop, h⟩ := bind_eq_ok.mp h
  obtain ⟨gap, hgap, -⟩ := bind_eq_ok.mp h
  refine ordered_of_loop hloop ?_
  unfold checkedSub at hgap
  split at hgap
  case isTrue hle => exact hle
  case isFalse => cases hgap

-- == to a list

/-- What the iterator reads off an operation list from `pos` on is
ordered, and its script is the operation list again, behind a retain of
what lies between `last` and `pos`. -/
private theorem changesIterLoop_alike (ops : List Operation) (pos : Nat) :
    ∀ last, last ≤ pos →
      Ordered (pos + oldLen ops) last (changesIterLoop ops pos)
        ∧ Alike (changesScript (pos + oldLen ops) last
            (changesIterLoop ops pos)) (.retain (pos - last) :: ops) := by
  induction ops, pos using changesIterLoop.induct with
  | case1 pos =>
      intro last hlast
      exact ⟨hlast, .refl _⟩
  | case2 n rest pos ih =>
      intro last hlast
      obtain ⟨hord, hal⟩ := ih last (by omega)
      rw [oldLen_cons, Edit.old_retain, ← Nat.add_assoc]
      refine ⟨hord, hal.trans ?_⟩
      have hcut := Alike.retain_add (pos - last) n rest
      rwa [show pos - last + n = pos + n - last from by omega] at hcut
  | case3 n rest pos ih =>
      intro last hlast
      obtain ⟨hord, hal⟩ := ih (pos + n) (Nat.le_refl _)
      rw [Nat.sub_self] at hal
      rw [oldLen_cons, Edit.old_delete, ← Nat.add_assoc, changesIterLoop,
        changesScript, Nat.add_sub_cancel_left]
      refine ⟨⟨hlast, Nat.le_add_right _ _, hord⟩, .cons _ ?_⟩
      exact (Alike.insert_nil _).trans
        ((hal.trans (.retain_zero _)).cons _)
  | case4 s n rest pos ih =>
      intro last hlast
      obtain ⟨hord, hal⟩ := ih (pos + n) (Nat.le_refl _)
      rw [Nat.sub_self] at hal
      rw [oldLen_cons, Edit.old_insert, Nat.zero_add, oldLen_cons,
        Edit.old_delete, ← Nat.add_assoc, changesIterLoop, changesScript,
        Nat.add_sub_cancel_left]
      refine ⟨⟨hlast, Nat.le_add_right _ _, hord⟩, .cons _ (.cons _ ?_)⟩
      exact (hal.trans (.retain_zero _)).cons _
  | case5 s rest pos hno ih =>
      intro last hlast
      obtain ⟨hord, hal⟩ := ih pos (Nat.le_refl _)
      rw [Nat.sub_self] at hal
      rw [oldLen_cons, Edit.old_insert, Nat.zero_add, changesIterLoop,
        changesScript, Nat.sub_self]
      · refine ⟨⟨hlast, Nat.le_refl _, hord⟩, .cons _ (.cons _ ?_)⟩
        exact (Alike.delete_zero _).trans (hal.trans (.retain_zero _))
      · exact hno

/-- `from_changes` replaces every range of the list at once, and
`changes_iter` gives a list back, in the coordinates of the old text,
from which a change set of the same effect is built. -/
theorem from_changes_iter {t : Rope} {changes : List Change}
    (h : Ordered t.length 0 changes) :
    ∃ c, fromChanges t changes = .ok c
      ∧ c.apply t = .ok (true, replaceAll t 0 changes)
      ∧ Ordered t.length 0 c.changesIter
      ∧ ∃ c', fromChanges t c.changesIter = .ok c'
          ∧ ∀ u, c'.apply u = c.apply u := by
  obtain ⟨c, hc, hwf, hlen, hal⟩ := fromChanges_spec h
  -- the effect of the list
  have hca := Valid.carries (.inl hwf) hlen
  rw [hal.run] at hca
  have hrun := run_changesScript t h
  rw [List.drop_zero] at hrun
  rw [hrun] at hca
  -- the way back through the iterator
  obtain ⟨hord, hback⟩ := changesIterLoop_alike c.changes 0 0 (Nat.le_refl _)
  rw [Nat.zero_add, hwf.old, hlen] at hord hback
  have hord : Ordered t.length 0 c.changesIter := hord
  obtain ⟨c', hc', hwf', hlen', hal'⟩ := fromChanges_spec hord
  refine ⟨c, hc, hca.apply, hord, c', hc', fun u => ?_⟩
  have hsame : Alike c'.changes c.changes :=
    hal'.trans (hback.trans (.retain_zero _))
  by_cases hu : u.length = t.length
  · have hcu := Valid.carries (.inl hwf) (hlen.trans hu.symm)
    have hcu' := Valid.carries (.inl hwf') (hlen'.trans hu.symm)
    rw [hsame.run] at hcu'
    rw [hcu.apply, hcu'.apply]
  · unfold apply
    rw [if_pos (by rw [hlen']; exact hu), if_pos (by rw [hlen]; exact hu)]

/-- Two adjacent replacements and an insertion at the end. -/
theorem from_changes_iter_adjacent :
    let t := ['a', 'b', 'c']
    let changes : List Change :=
      [(0, 1, some ['x']), (1, 2, some ['y', 'z']), (3, 3, some ['!'])]
    ∃ c, fromChanges t changes = .ok c
      ∧ c.apply t = .ok (true, replaceAll t 0 changes)
      ∧ Ordered t.length 0 c.changesIter
      ∧ ∃ c', fromChanges t c.changesIter = .ok c'
          ∧ ∀ u, c'.apply u = c.apply u :=
  from_changes_iter (by simp [Ordered])

end ChangeSet

end Zmax
