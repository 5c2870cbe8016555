/-
Deleting the union of a list of ranges.

`Transaction::delete` takes the ranges in the order of their starts and
cuts off what an earlier one has deleted already. Its loop is held
against a single predicate, which chars are outside of every range: the
operations so far keep those of the first `last` chars (`deleteLoop_spec`).
-/
import Zmax.Core.PerRange
import Zmax.Core.Proofs.Revisions

namespace Zmax

open Script

-- == the meaning

/-- The position is in none of the ranges. -/
def outside (deletions : List Deletion) (pos : Nat) : Bool :=
  deletions.all fun d => pos < d.1 || d.2 ≤ pos

/-- The chars of `t` at the positions that satisfy `p`, the first char
being at `pos`. -/
def keepFrom (p : Nat → Bool) (pos : Nat) (t : Rope) : Rope :=
  ((t.zipIdx pos).filter fun x => p x.2).map Prod.fst

/-- What is left of a text without the chars in the ranges. -/
def deleteAll (deletions : List Deletion) (t : Rope) : Rope :=
  keepFrom (outside deletions) 0 t

theorem outside_iff {deletions : List Deletion} {pos : Nat} :
    outside deletions pos ↔ ∀ d ∈ deletions, d.1 ≤ pos → d.2 ≤ pos := by
  simp only [outside, List.all_eq_true, Bool.or_eq_true, decide_eq_true_eq]
  constructor
  · intro h d hd hle
    have := h d hd
    omega
  · intro h d hd
    have := h d hd
    omega

variable {p : Nat → Bool} {pos : Nat}

theorem keepFrom_append (t u : Rope) :
    keepFrom p pos (t ++ u)
      = keepFrom p pos t ++ keepFrom p (pos + t.length) u := by
  simp [keepFrom, List.zipIdx_append]

theorem keepFrom_of_all {t : Rope}
    (h : ∀ i, pos ≤ i → i < pos + t.length → p i) :
    keepFrom p pos t = t := by
  have hall : ∀ x ∈ t.zipIdx pos, p x.2 := by
    intro x hx
    obtain ⟨hle, hlt, -⟩ := List.mem_zipIdx hx
    exact h x.2 hle hlt
  rw [keepFrom, List.filter_eq_self.mpr hall]
  exact List.zipIdx_map_fst pos t

theorem keepFrom_of_none {t : Rope}
    (h : ∀ i, pos ≤ i → i < pos + t.length → ¬ p i) :
    keepFrom p pos t = [] := by
  have hnone : ∀ x ∈ t.zipIdx pos, ¬ p x.2 := by
    intro x hx
    obtain ⟨hle, hlt, -⟩ := List.mem_zipIdx hx
    exact h x.2 hle hlt
  rw [keepFrom, List.filter_eq_nil_iff.mpr hnone]
  rfl

-- == the loop

namespace Transaction

/-- A text up to `b`, cut at `a`. -/
private theorem take_split {t : Rope} {a b : Nat} (hab : a ≤ b) :
    t.take b = t.take a ++ (t.drop a).take (b - a) := by
  rw [← List.take_add, Nat.add_sub_cancel' hab]

/-- The operations so far keep what `p` says of the first `last` chars;
the ranges left are not `p`, and nothing else from `last` on is not. -/
structure Deleted (t : Rope) (p : Nat → Bool) (rest : List Deletion)
    (last : Nat) (c : ChangeSet) : Prop where
  wf : c.WellFormed
  len : c.len = last
  le : last ≤ t.length
  run : run c.changes (t.take last) = keepFrom p 0 (t.take last)
  gone : ∀ d ∈ rest, ∀ i, d.1 ≤ i → i < d.2 → ¬ p i
  kept : ∀ i, last ≤ i → (∀ d ∈ rest, d.1 ≤ i → d.2 ≤ i) → p i

variable {t : Rope} {c : ChangeSet} {rest : List Deletion} {last : Nat}

/-- Retaining chars that are outside of every range. -/
theorem Deleted.retain (h : Deleted t p rest last c) {start : Nat}
    (hle : last ≤ start) (hstart : start ≤ t.length)
    (hfree : ∀ i, last ≤ i → i < start → p i) :
    Deleted t p rest start (c.retain (start - last)) where
  wf := h.wf.retain _
  len := by
    rw [ChangeSet.len_retain, h.len]
    omega
  le := hstart
  run := by
    have hlast := h.le
    have hpre : (t.take last).length = c.len := by
      rw [List.length_take, h.len]
      omega
    have hspan : ((t.drop last).take (start - last)).length
        = start - last := by
      rw [List.length_take, List.length_drop]
      omega
    have hkeep : keepFrom p last ((t.drop last).take (start - last))
        = (t.drop last).take (start - last) :=
      keepFrom_of_all fun i hi hlt => hfree i hi (by omega)
    rw [take_split hle, ChangeSet.run_retain_append h.wf hpre hspan,
      keepFrom_append, h.run, hpre, h.len, Nat.zero_add, hkeep]
  gone := h.gone
  kept := fun i hi => h.kept i (by omega)

/-- Deleting chars that are in some range. -/
theorem Deleted.delete {start stop : Nat} (h : Deleted t p rest start c)
    (hle : start ≤ stop) (hstop : stop ≤ t.length)
    (hin : ∀ i, start ≤ i → i < stop → ¬ p i) :
    Deleted t p rest stop (c.delete (stop - start)) where
  wf := h.wf.delete _
  len := by
    rw [ChangeSet.len_delete, h.len]
    omega
  le := hstop
  run := by
    have hstart := h.le
    have hpre : (t.take start).length = c.len := by
      rw [List.length_take, h.len]
      omega
    have hspan : ((t.drop start).take (stop - start)).length
        = stop - start := by
      rw [List.length_take, List.length_drop]
      omega
    have hdrop : keepFrom p start ((t.drop start).take (stop - start))
        = [] :=
      keepFrom_of_none fun i hi hlt => hin i hi (by omega)
    rw [take_split hle, ChangeSet.run_delete_append h.wf hpre hspan,
      keepFrom_append, h.run, hpre, h.len, Nat.zero_add, hdrop,
      List.append_nil]
  gone := h.gone
  kept := fun i hi => h.kept i (by omega)

/-- The first range left is behind `last` when it ends there. -/
theorem Deleted.tail {start stop : Nat}
    (h : Deleted t p ((start, stop) :: rest) last c) (hle : stop ≤ last) :
    Deleted t p rest last c where
  wf := h.wf
  len := h.len
  le := h.le
  run := h.run
  gone := fun d hd => h.gone d (List.mem_cons_of_mem _ hd)
  kept := by
    intro i hi hrest
    refine h.kept i hi fun d hd _ => ?_
    rcases List.mem_cons.mp hd with rfl | hd
    · exact Nat.le_trans hle hi
    · exact hrest d hd ‹_›

/-- The loop gets through ranges in the order of their starts. -/
theorem deleteLoop_spec (h : Deleted t p rest last c)
    (hfit : ∀ d ∈ rest, d.1 ≤ d.2 ∧ d.2 ≤ t.length)
    (hsorted : rest.Pairwise fun a b => a.1 ≤ b.1) :
    ∃ last' c', deleteLoop rest last c = .ok (last', c')
      ∧ Deleted t p [] last' c' := by
  induction rest generalizing last c with
  | nil => exact ⟨last, c, rfl, h⟩
  | cons d rest ih =>
      obtain ⟨start, stop⟩ := d
      obtain ⟨hlater, hsorted⟩ := List.pairwise_cons.mp hsorted
      obtain ⟨⟨hspan, hlen⟩, hfit⟩ := List.forall_mem_cons.mp hfit
      rw [deleteLoop]
      by_cases hpast : stop < last
      · -- a range nested in what is deleted already
        rw [if_pos hpast]
        exact ih (h.tail (Nat.le_of_lt hpast)) hfit hsorted
      · rw [if_neg hpast]
        generalize hfrom : (if start < last then last else start) = a
        have hlow : last ≤ a ∧ start ≤ a ∧ a ≤ stop := by
          dsimp only at hspan
          split at hfrom <;> omega
        obtain ⟨hlast, hstart, hstop⟩ := hlow
        -- no range reaches into what lies before this one
        have hfree : ∀ i, last ≤ i → i < a → p i := by
          intro i hi hlt
          refine h.kept i hi fun d hd hdi => ?_
          have hge : start ≤ d.1 := by
            rcases List.mem_cons.mp hd with rfl | hd
            · exact Nat.le_refl _
            · exact hlater d hd
          split at hfrom <;> omega
        have hin : ∀ i, a ≤ i → i < stop → ¬ p i := by
          intro i hi
          exact h.gone _ List.mem_cons_self i (Nat.le_trans hstart hi)
        have hdone := ((h.retain hlast (Nat.le_trans hstop hlen)
          hfree).delete hstop hlen hin).tail (Nat.le_refl _)
        obtain ⟨last', c', hloop, hc'⟩ := ih hdone hfit hsorted
        refine ⟨last', c', ?_, hc'⟩
        simp only [hstop, decide_true, assert_true, ok_bind,
          checkedSub_of_le hlast, checkedSub_of_le hstop, hloop]

/-- Deletions in the order of their starts remove the union of their
ranges. -/
theorem delete_carries {doc : Rope} {deletions : List Deletion}
    (hfit : ∀ d ∈ deletions, d.1 ≤ d.2 ∧ d.2 ≤ doc.length)
    (hsorted : deletions.Pairwise fun a b => a.1 ≤ b.1) :
    ∃ tx, delete doc deletions = .ok tx
      ∧ tx.Carries doc (deleteAll deletions doc) := by
  have hstart : Deleted doc (outside deletions) deletions 0
      .withCapacity := by
    refine ⟨ChangeSet.wellFormed_withCapacity, rfl, Nat.zero_le _, rfl,
      ?_, ?_⟩
    · intro d hd i hlow hlt hout
      have := outside_iff.mp hout d hd hlow
      omega
    · intro i _ hall
      exact outside_iff.mpr hall
  obtain ⟨last, c, hloop, hc⟩ := deleteLoop_spec hstart hfit hsorted
  have hend := hc.retain hc.le (Nat.le_refl _) fun i hi _ =>
    hc.kept i hi fun d hd => by cases hd
  refine ⟨ofChanges (c.retain (doc.length - last)), ?_, ?_⟩
  · rw [delete, hloop]
    simp only [ok_bind, checkedSub_of_le hc.le]
    rfl
  · refine ⟨.inl hend.wf, hend.len, ?_⟩
    have hrun := hend.run
    rwa [List.take_length] at hrun

/-- Whatever the deletions share, exactly the chars in none of them are
left, in their order. -/
theorem delete_union (doc : Rope) (deletions : List Deletion)
    (hfit : ∀ d ∈ deletions, d.1 ≤ d.2 ∧ d.2 ≤ doc.length)
    (hsorted : deletions.Pairwise fun a b => a.1 ≤ b.1) :
    ∃ tx, delete doc deletions = .ok tx
      ∧ tx.apply doc = .ok (true, deleteAll deletions doc) := by
  obtain ⟨tx, htx, hc⟩ := delete_carries hfit hsorted
  exact ⟨tx, htx, hc.turns⟩

/-- Overlapping, nested, touching and empty ranges. -/
theorem delete_union_nested :
    let doc := ['a', 'b', 'c', 'd', 'e', 'f', 'g', 'h']
    let deletions := [(1, 4), (2, 3), (3, 5), (5, 6), (5, 5), (7, 7)]
    ∃ tx, delete doc deletions = .ok tx
      ∧ tx.apply doc = .ok (true, deleteAll deletions doc) :=
  delete_union _ _ (by decide) (by decide)

end Transaction

end Zmax
