/-
What the change set builders do, said once: appending through a builder
means appending the operation, whatever merging and reordering the
builder does on the way, and the two recorded lengths follow.

`WellFormed` is the invariant the builders establish and every consumer
relies on: the operations consume `len` chars, write `lenAfter`, and
none of them is void. `Carries c t u` is the consumer's reading of it: `c`
is well formed, fits `t`, and makes `u` of it. The bridge to the loop
that edits the text in place is `applyLoop_eq_run`.
-/
import Zmax.Core.ChangeSet

namespace Zmax

open Script

namespace ChangeSet

-- == the invariant

/-- The recorded lengths are those of the operations, and no operation
is void. -/
structure WellFormed (c : ChangeSet) : Prop where
  old : oldLen c.changes = c.len
  new : newLen c.changes = c.lenAfter
  proper : ∀ e ∈ c.changes, e.Proper

/-- The change set of no operations on a text of some length, as `new`
makes it. -/
def IsIdentity (c : ChangeSet) : Prop :=
  c.changes = [] ∧ c.lenAfter = c.len

theorem wellFormed_withCapacity : withCapacity.WellFormed :=
  ⟨rfl, rfl, fun _ he => absurd he (List.not_mem_nil)⟩

theorem isIdentity_new (doc : Rope) : (new doc).IsIdentity := ⟨rfl, rfl⟩

-- == one builder at a time

/-- The operations of `c.delete n`: those of `c`, then a delete. -/
theorem delete_alike (c : ChangeSet) (n : Nat) :
    Alike (c.delete n).changes (c.changes ++ [.delete n]) := by
  unfold delete
  split
  case isTrue h0 =>
    subst h0
    have hvoid := (Alike.delete_zero []).symm.append_left c.changes
    rwa [List.append_nil] at hvoid
  case isFalse h0 =>
    dsimp only
    split
    next count init hrev =>
      rw [List.reverse_cons, List.reverse_eq_cons_iff.mp hrev,
        List.append_assoc]
      exact (Alike.delete_add count n []).append_left init.reverse
    next => exact .refl _

/-- The operations of `c.retain n`: those of `c`, then a retain. -/
theorem retain_alike (c : ChangeSet) (n : Nat) :
    Alike (c.retain n).changes (c.changes ++ [.retain n]) := by
  unfold retain
  split
  case isTrue h0 =>
    subst h0
    have hvoid := (Alike.retain_zero []).symm.append_left c.changes
    rwa [List.append_nil] at hvoid
  case isFalse h0 =>
    dsimp only
    split
    next count init hrev =>
      rw [List.reverse_cons, List.reverse_eq_cons_iff.mp hrev,
        List.append_assoc]
      exact (Alike.retain_add count n []).append_left init.reverse
    next => exact .refl _

/-- The operations of `c.insert s`: those of `c`, then an insert,
although the builder may put it in front of a delete. -/
theorem insert_alike (c : ChangeSet) (s : Tendril) :
    Alike (c.insert s).changes (c.changes ++ [.insert s]) := by
  unfold insert
  split
  case isTrue h0 =>
    have hs : s = [] := List.isEmpty_iff.mp h0
    subst hs
    have hvoid := (Alike.insert_nil []).symm.append_left c.changes
    rwa [List.append_nil] at hvoid
  case isFalse h0 =>
    dsimp only
    split
    next prev init hrev =>
      -- onto the insert that is last
      rw [List.reverse_cons, List.reverse_eq_cons_iff.mp hrev,
        List.append_assoc]
      exact (Alike.insert_append prev s []).append_left init.reverse
    next n prev init hrev =>
      -- onto the insert that is last but a delete
      have hx := List.reverse_eq_cons_iff.mp hrev
      rw [List.reverse_cons] at hx
      simp only [List.reverse_cons, hx, List.append_assoc,
        List.singleton_append]
      refine Alike.append_left init.reverse ?_
      exact (Alike.insert_append prev s [.delete n]).trans
        ((Alike.swap n s []).symm.cons _)
    next n init hno hrev =>
      -- in front of the delete that is last
      have hx := List.reverse_eq_cons_iff.mp hrev
      simp only [List.reverse_cons, hx, List.append_assoc,
        List.singleton_append]
      exact (Alike.swap n s []).symm.append_left init.reverse
    next => exact .refl _

-- == nothing void enters

private theorem forall_mem_concat {p : Operation → Prop}
    {es : List Operation} {e : Operation} :
    (∀ x ∈ es ++ [e], p x) ↔ (∀ x ∈ es, p x) ∧ p e := by
  simp only [List.mem_append, List.mem_singleton]
  constructor
  · intro h
    exact ⟨fun x hx => h x (.inl hx), h e (.inr rfl)⟩
  · rintro ⟨h, he⟩ x (hx | rfl)
    · exact h x hx
    · exact he

theorem delete_proper {c : ChangeSet} (h : ∀ e ∈ c.changes, e.Proper)
    (n : Nat) : ∀ e ∈ (c.delete n).changes, e.Proper := by
  unfold delete
  split
  case isTrue => exact h
  case isFalse h0 =>
    dsimp only
    split
    next count init hrev =>
      rw [List.reverse_eq_cons_iff.mp hrev, forall_mem_concat] at h
      rw [List.reverse_cons, forall_mem_concat]
      exact ⟨h.1, by simp; omega⟩
    next =>
      rw [forall_mem_concat]
      exact ⟨h, by simp; omega⟩

theorem retain_proper {c : ChangeSet} (h : ∀ e ∈ c.changes, e.Proper)
    (n : Nat) : ∀ e ∈ (c.retain n).changes, e.Proper := by
  unfold retain
  split
  case isTrue => exact h
  case isFalse h0 =>
    dsimp only
    split
    next count init hrev =>
      rw [List.reverse_eq_cons_iff.mp hrev, forall_mem_concat] at h
      rw [List.reverse_cons, forall_mem_concat]
      exact ⟨h.1, by simp; omega⟩
    next =>
      rw [forall_mem_concat]
      exact ⟨h, by simp; omega⟩

theorem insert_proper {c : ChangeSet} (h : ∀ e ∈ c.changes, e.Proper)
    (s : Tendril) : ∀ e ∈ (c.insert s).changes, e.Proper := by
  unfold insert
  split
  case isTrue => exact h
  case isFalse h0 =>
    have hs : s ≠ [] := by simpa [List.isEmpty_iff] using h0
    dsimp only
    split
    next prev init hrev =>
      rw [List.reverse_eq_cons_iff.mp hrev, forall_mem_concat] at h
      rw [List.reverse_cons, forall_mem_concat]
      exact ⟨h.1, by simp [hs]⟩
    next n prev init hrev =>
      rw [List.reverse_eq_cons_iff.mp hrev, List.reverse_cons, forall_mem_concat,
        forall_mem_concat] at h
      rw [List.reverse_cons, List.reverse_cons, forall_mem_concat,
        forall_mem_concat]
      exact ⟨⟨h.1.1, by simp [hs]⟩, h.2⟩
    next n init hno hrev =>
      rw [List.reverse_eq_cons_iff.mp hrev, forall_mem_concat] at h
      rw [List.reverse_cons, List.reverse_cons, forall_mem_concat,
        forall_mem_concat]
      exact ⟨⟨h.1, by simp [hs]⟩, h.2⟩
    next =>
      rw [forall_mem_concat]
      exact ⟨h, by simp [hs]⟩

-- == the recorded lengths

@[simp] theorem len_delete (c : ChangeSet) (n : Nat) :
    (c.delete n).len = c.len + n := by
  unfold delete
  split <;> simp_all

@[simp] theorem lenAfter_delete (c : ChangeSet) (n : Nat) :
    (c.delete n).lenAfter = c.lenAfter := by
  unfold delete
  split <;> rfl

@[simp] theorem len_retain (c : ChangeSet) (n : Nat) :
    (c.retain n).len = c.len + n := by
  unfold retain
  split <;> simp_all

@[simp] theorem lenAfter_retain (c : ChangeSet) (n : Nat) :
    (c.retain n).lenAfter = c.lenAfter + n := by
  unfold retain
  split <;> simp_all

@[simp] theorem len_insert (c : ChangeSet) (s : Tendril) :
    (c.insert s).len = c.len := by
  unfold insert
  split <;> rfl

@[simp] theorem lenAfter_insert (c : ChangeSet) (s : Tendril) :
    (c.insert s).lenAfter = c.lenAfter + s.length := by
  unfold insert
  split
  case isTrue h => simp [List.isEmpty_iff.mp h]
  case isFalse => rfl

variable {c : ChangeSet}

theorem WellFormed.delete (h : c.WellFormed) (n : Nat) :
    (c.delete n).WellFormed where
  old := by rw [(delete_alike c n).old, len_delete, ← h.old]; simp
  new := by rw [(delete_alike c n).new, lenAfter_delete, ← h.new]; simp
  proper := delete_proper h.proper n

theorem WellFormed.retain (h : c.WellFormed) (n : Nat) :
    (c.retain n).WellFormed where
  old := by rw [(retain_alike c n).old, len_retain, ← h.old]; simp
  new := by rw [(retain_alike c n).new, lenAfter_retain, ← h.new]; simp
  proper := retain_proper h.proper n

theorem WellFormed.insert (h : c.WellFormed) (s : Tendril) :
    (c.insert s).WellFormed where
  old := by rw [(insert_alike c s).old, len_insert, ← h.old]; simp
  new := by rw [(insert_alike c s).new, lenAfter_insert, ← h.new]; simp
  proper := insert_proper h.proper s

-- == appending, over a split of the text

variable {pre u t : Rope}

/-- Behind a text that `c` consumes whole, `c.retain n` also keeps the
next `n` chars. -/
theorem run_retain_append (h : c.WellFormed) {n : Nat}
    (hpre : pre.length = c.len) (hu : u.length = n) :
    run (c.retain n).changes (pre ++ u) = run c.changes pre ++ u := by
  rw [(retain_alike c n).run, run_append _ (by rw [h.old, hpre])]
  simp [← hu]

/-- Behind a text that `c` consumes whole, `c.delete n` also drops the
next `n` chars. -/
theorem run_delete_append (h : c.WellFormed) {n : Nat}
    (hpre : pre.length = c.len) (hu : u.length = n) :
    run (c.delete n).changes (pre ++ u) = run c.changes pre := by
  rw [(delete_alike c n).run, run_append _ (by rw [h.old, hpre])]
  simp [← hu]

/-- Behind a text that `c` consumes whole, `c.insert s` also writes
`s`. -/
theorem run_insert_append (h : c.WellFormed) {s : Tendril}
    (hpre : pre.length = c.len) :
    run (c.insert s).changes pre = run c.changes pre ++ s := by
  have := run_append (u := []) [.insert s] (by rw [h.old, hpre] :
    oldLen c.changes = pre.length)
  rw [(insert_alike c s).run]
  simpa using this

-- == applying

/-- The loop that edits in place computes `run` on the part of the text
behind its cursor. -/
theorem applyLoop_eq_run {ops : List Operation} {pos : Nat} {text : Rope}
    (hpos : pos ≤ text.length) (h : oldLen ops ≤ text.length - pos) :
    applyLoop ops pos text
      = .ok (text.take pos ++ run ops (text.drop pos)) := by
  induction ops generalizing pos text with
  | nil => simp [applyLoop]
  | cons e ops ih =>
      rw [oldLen_cons] at h
      cases e with
      | retain n =>
          simp only [Edit.old_retain] at h
          rw [applyLoop, ih (by omega) (by omega), List.take_add,
            run_retain, List.drop_drop, List.append_assoc]
      | delete n =>
          simp only [Edit.old_delete] at h
          have hlen : (text.take pos).length = pos := by
            rw [List.length_take]
            omega
          rw [applyLoop, if_pos (by omega), ih]
          · rw [List.take_left' hlen, List.drop_left' hlen, run_delete,
              List.drop_drop]
          · rw [List.length_append, hlen]
            omega
          · rw [List.length_append, List.length_drop, hlen]
            omega
      | insert s =>
          simp only [Edit.old_insert] at h
          have hlen : (text.take pos ++ s).length = pos + s.length := by
            rw [List.length_append, List.length_take]
            omega
          rw [applyLoop, if_pos hpos, ih]
          · rw [List.take_left' hlen, List.drop_left' hlen, run_insert,
              List.append_assoc]
          · rw [List.length_append, hlen]
            omega
          · rw [List.length_append, List.length_drop, hlen]
            omega

/-- What every change set of the program is: well formed, or without
operations on a text of any length. -/
def Valid (c : ChangeSet) : Prop := c.WellFormed ∨ c.IsIdentity

theorem Valid.oldLen_le (h : c.Valid) : oldLen c.changes ≤ c.len := by
  rcases h with h | h
  · exact Nat.le_of_eq h.old
  · rw [h.1]
    exact Nat.zero_le _

/-- A valid change set leaves a text of the recorded length. -/
theorem Valid.length_run (h : c.Valid) (ht : c.len = t.length) :
    (Script.run c.changes t).length = c.lenAfter := by
  rcases h with h | h
  · rw [length_run_of_oldLen_eq (by rw [h.old, ht]), h.new]
  · rw [h.1, h.2, ht, run_nil]

/-- The operations of `c` fit `t` and make `u` of it. -/
structure Carries (c : ChangeSet) (t u : Rope) : Prop where
  valid : c.Valid
  len : c.len = t.length
  run : run c.changes t = u

theorem Valid.carries (h : c.Valid) (ht : c.len = t.length) :
    c.Carries t (Script.run c.changes t) :=
  ⟨h, ht, rfl⟩

/-- The recorded new length is the new text's. -/
theorem Carries.lenAfter (h : c.Carries t u) : c.lenAfter = u.length := by
  rw [← h.run, h.valid.length_run h.len]

/-- A change set that carries one text to another does so when applied. -/
theorem Carries.apply (h : c.Carries t u) : c.apply t = .ok (true, u) := by
  have hl : ¬ t.length ≠ c.len := by simp [h.len]
  have hloop : applyLoop c.changes 0 t = .ok u := by
    have hle := h.valid.oldLen_le
    rw [applyLoop_eq_run (Nat.zero_le _) (by rw [← h.len]; omega)]
    simp [h.run]
  unfold ChangeSet.apply
  rw [if_neg hl, hloop]
  rfl

/-- A text is carried to one text only. -/
theorem Carries.unique {v : Rope} (hu : c.Carries t u) (hv : c.Carries t v) :
    u = v := hu.run.symm.trans hv.run

end ChangeSet

end Zmax
