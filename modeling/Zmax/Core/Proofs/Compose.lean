/-
`ChangeSet::compose` computes composition: walking two operation lists
side by side and building a third one means applying the first and then
the second.

# The simulation

The loop holds a piece of each list and the change set built so far.
`Composes acc a b c` says what the loop still owes when it ends in `c`:
behind whatever `acc` has consumed, `c` does what the rest of A and then
the rest of B do. Each arm of the loop moves the cursors by one stretch,
and each kind of stretch has one lemma (`Composes.retain_retain` and its
siblings); an arm that finds heads of unequal length first splits the
longer one (`Composes.of_alike`).

The proper operations keep the `unreachable!` arm out: a list that still
has an operation still consumes or writes something, so neither side can
run out first.

# The two empty cases

A change set without operations stands for the identity of its length.
`compose` returns the other side for it, which is why identities are
admitted on either side although they are not well formed.
-/
import Zmax.Core.Proofs.Builder

namespace Zmax

open Script

namespace ChangeSet

-- == what the builders reach

/-- The change sets that the builders make, from no operations on no
text. -/
inductive Built : ChangeSet → Prop
  | withCapacity : Built withCapacity
  | delete {c : ChangeSet} (n : Nat) : Built c → Built (c.delete n)
  | insert {c : ChangeSet} (s : Tendril) : Built c → Built (c.insert s)
  | retain {c : ChangeSet} (n : Nat) : Built c → Built (c.retain n)

theorem Built.wellFormed {c : ChangeSet} (h : Built c) : c.WellFormed := by
  induction h with
  | withCapacity => exact wellFormed_withCapacity
  | delete n _ ih => exact ih.delete n
  | insert s _ ih => exact ih.insert s
  | retain n _ ih => exact ih.retain n

-- == what the loop owes

/-- `c` is what the loop has to end in, from `acc` with `a` and `b` to
go. -/
structure Composes (acc : ChangeSet) (a b : List Operation)
    (c : ChangeSet) : Prop where
  wellFormed : c.WellFormed
  len : c.len = acc.len + oldLen a
  lenAfter : c.lenAfter = acc.lenAfter + newLen b
  run : ∀ pre t : Rope, pre.length = acc.len → oldLen a = t.length →
    run c.changes (pre ++ t) = run acc.changes pre ++ run b (run a t)

variable {acc c : ChangeSet} {a b : List Operation}

/-- Nothing to go: the loop ends in what it has built. -/
theorem Composes.nil (hacc : acc.WellFormed) : Composes acc [] [] acc where
  wellFormed := hacc
  len := by simp
  lenAfter := by simp
  run := by
    intro pre t _ ht
    have ht' : t = [] := List.length_eq_zero_iff.mp ht.symm
    subst ht'
    simp

/-- Lists of the same meaning are owed the same. -/
theorem Composes.of_alike {a' b' : List Operation} (ha : Alike a a')
    (hb : Alike b b') (h : Composes acc a' b' c) : Composes acc a b c where
  wellFormed := h.wellFormed
  len := by rw [h.len, ha.old]
  lenAfter := by rw [h.lenAfter, hb.new]
  run := by
    intro pre t hpre ht
    rw [h.run pre t hpre (ha.old ▸ ht), hb.run, ha.run]

/-- The text in front of a step of length `n`, cut off. -/
private theorem length_take_of {t : Rope} {n m : Nat}
    (h : n + m = t.length) :
    (t.take n).length = n ∧ m = (t.drop n).length := by
  rw [List.length_take, List.length_drop]
  omega

/-- Deletion in A: the chars never reach B. -/
theorem Composes.delete {i : Nat} (hacc : acc.WellFormed)
    (h : Composes (acc.delete i) a b c) :
    Composes acc (.delete i :: a) b c where
  wellFormed := h.wellFormed
  len := by
    rw [h.len, len_delete, oldLen_cons, Edit.old_delete]
    omega
  lenAfter := by rw [h.lenAfter, lenAfter_delete]
  run := by
    intro pre t hpre ht
    obtain ⟨htake, hdrop⟩ := length_take_of (n := i) (m := oldLen a)
      (by simpa using ht)
    have hr := h.run (pre ++ t.take i) (t.drop i)
      (by rw [List.length_append, hpre, htake, len_delete]) hdrop
    rw [List.append_assoc, List.take_append_drop,
      run_delete_append hacc hpre htake] at hr
    exact hr

/-- Insertion in B: written before anything else is consumed. -/
theorem Composes.insert {s : Tendril} (hacc : acc.WellFormed)
    (h : Composes (acc.insert s) a b c) :
    Composes acc a (.insert s :: b) c where
  wellFormed := h.wellFormed
  len := by rw [h.len, len_insert]
  lenAfter := by
    rw [h.lenAfter, lenAfter_insert, newLen_cons, Edit.new_insert]
    omega
  run := by
    intro pre t hpre ht
    rw [h.run pre t (by rw [hpre, len_insert]) ht,
      run_insert_append hacc hpre, run_insert, List.append_assoc]

/-- Both sides keep the same stretch. -/
theorem Composes.retain_retain {n : Nat} (hacc : acc.WellFormed)
    (h : Composes (acc.retain n) a b c) :
    Composes acc (.retain n :: a) (.retain n :: b) c where
  wellFormed := h.wellFormed
  len := by
    rw [h.len, len_retain, oldLen_cons, Edit.old_retain]
    omega
  lenAfter := by
    rw [h.lenAfter, lenAfter_retain, newLen_cons, Edit.new_retain]
    omega
  run := by
    intro pre t hpre ht
    obtain ⟨htake, hdrop⟩ := length_take_of (n := n) (m := oldLen a)
      (by simpa using ht)
    have hr := h.run (pre ++ t.take n) (t.drop n)
      (by rw [List.length_append, hpre, htake, len_retain]) hdrop
    rw [List.append_assoc, List.take_append_drop,
      run_retain_append hacc hpre htake] at hr
    rw [hr, run_retain, run_retain, List.take_left' htake,
      List.drop_left' htake, List.append_assoc]

/-- B deletes what A inserts. -/
theorem Composes.insert_delete {s : Tendril}
    (h : Composes acc a b c) :
    Composes acc (.insert s :: a) (.delete s.length :: b) c where
  wellFormed := h.wellFormed
  len := by rw [h.len, oldLen_cons, Edit.old_insert, Nat.zero_add]
  lenAfter := by rw [h.lenAfter, newLen_cons, Edit.new_delete, Nat.zero_add]
  run := by
    intro pre t hpre ht
    rw [oldLen_cons, Edit.old_insert, Nat.zero_add] at ht
    rw [h.run pre t hpre ht, run_insert, run_delete, List.drop_left]

/-- B keeps what A inserts. -/
theorem Composes.insert_retain {s : Tendril} (hacc : acc.WellFormed)
    (h : Composes (acc.insert s) a b c) :
    Composes acc (.insert s :: a) (.retain s.length :: b) c where
  wellFormed := h.wellFormed
  len := by rw [h.len, len_insert, oldLen_cons, Edit.old_insert, Nat.zero_add]
  lenAfter := by
    rw [h.lenAfter, lenAfter_insert, newLen_cons, Edit.new_retain]
    omega
  run := by
    intro pre t hpre ht
    rw [oldLen_cons, Edit.old_insert, Nat.zero_add] at ht
    rw [h.run pre t (by rw [hpre, len_insert]) ht,
      run_insert_append hacc hpre, run_insert, run_retain, List.take_left,
      List.drop_left, List.append_assoc]

/-- B deletes what A keeps. -/
theorem Composes.retain_delete {n : Nat} (hacc : acc.WellFormed)
    (h : Composes (acc.delete n) a b c) :
    Composes acc (.retain n :: a) (.delete n :: b) c where
  wellFormed := h.wellFormed
  len := by
    rw [h.len, len_delete, oldLen_cons, Edit.old_retain]
    omega
  lenAfter := by
    rw [h.lenAfter, lenAfter_delete, newLen_cons, Edit.new_delete,
      Nat.zero_add]
  run := by
    intro pre t hpre ht
    obtain ⟨htake, hdrop⟩ := length_take_of (n := n) (m := oldLen a)
      (by simpa using ht)
    have hr := h.run (pre ++ t.take n) (t.drop n)
      (by rw [List.length_append, hpre, htake, len_delete]) hdrop
    rw [List.append_assoc, List.take_append_drop,
      run_delete_append hacc hpre htake] at hr
    rw [hr, run_retain, run_delete, List.drop_left' htake]

/-- A split at an index inside the string succeeds. -/
private theorem splitAtChar_eq {s : Tendril} {j : Nat}
    (h : j < s.length) : splitAtChar s j = .ok (s.take j, s.drop j) := by
  unfold splitAtChar
  rw [List.getElem?_eq_getElem h]

-- == the loop

private theorem proper_cons {e : Operation} {es : List Operation} :
    (∀ x ∈ e :: es, x.Proper) ↔ e.Proper ∧ ∀ x ∈ es, x.Proper :=
  List.forall_mem_cons

/-- The loop pays what it owes, and panics nowhere: A's and B's rests
are proper and B consumes exactly what A writes. -/
theorem composeLoop_spec (a b : List Operation) (acc : ChangeSet)
    (hacc : acc.WellFormed) (hpa : ∀ e ∈ a, e.Proper)
    (hpb : ∀ e ∈ b, e.Proper) (hba : oldLen b = newLen a) :
    ∃ c, composeLoop a b acc = .ok c ∧ Composes acc a b c := by
  induction a, b, acc using composeLoop.induct with
  | case1 acc => exact ⟨acc, by rw [composeLoop], .nil hacc⟩
  | case2 i a b acc ih =>
      rw [proper_cons] at hpa
      obtain ⟨c, hc, hs⟩ := ih (hacc.delete i) hpa.2 hpb (by simpa using hba)
      exact ⟨c, by rw [composeLoop]; exact hc, hs.delete hacc⟩
  | case3 a s b acc hna ih =>
      rw [proper_cons] at hpb
      obtain ⟨c, hc, hs⟩ := ih (hacc.insert s) hpa hpb.2 (by simpa using hba)
      exact ⟨c, by rw [composeLoop.eq_3 a acc s b hna]; exact hc,
        hs.insert hacc⟩
  | case4 e b acc hnb =>
      -- A has run out: B would consume chars nobody wrote
      exfalso
      rw [proper_cons] at hpb
      have he : 0 < e.old + e.new := hpb.1
      rw [oldLen_cons, newLen_nil] at hba
      cases e with
      | insert s => exact hnb s rfl
      | retain n =>
          simp only [Edit.old_retain, Edit.new_retain] at he hba
          omega
      | delete n =>
          simp only [Edit.old_delete, Edit.new_delete] at he hba
          omega
  | case5 e a acc hna =>
      -- B has run out: A would write chars nobody consumes
      exfalso
      rw [proper_cons] at hpa
      have he : 0 < e.old + e.new := hpa.1
      rw [newLen_cons, oldLen_nil] at hba
      cases e with
      | delete i => exact hna i rfl
      | retain n =>
          simp only [Edit.old_retain, Edit.new_retain] at he hba
          omega
      | insert s =>
          simp only [Edit.old_insert, Edit.new_insert] at he hba
          omega
  -- retain against retain
  | case6 i a j b acc hij ih =>
      rw [proper_cons] at hpa hpb
      simp only [oldLen_cons, newLen_cons, Edit.old_retain,
        Edit.new_retain] at hba ih
      obtain ⟨c, hc, hs⟩ := ih (hacc.retain i) hpa.2
        (proper_cons.mpr ⟨by simp; omega, hpb.2⟩) (by omega)
      refine ⟨c, by rw [composeLoop, if_pos hij]; exact hc, ?_⟩
      exact .of_alike (.refl _) (Alike.retain_of_le (Nat.le_of_lt hij) b)
        (hs.retain_retain hacc)
  | case7 a j b acc hlt ih =>
      rw [proper_cons] at hpa hpb
      obtain ⟨c, hc, hs⟩ := ih (hacc.retain j) hpa.2 hpb.2
        (by simpa using hba)
      exact ⟨c, by rw [composeLoop, if_neg hlt, if_pos rfl]; exact hc,
        hs.retain_retain hacc⟩
  | case8 i a j b acc hlt hne ih =>
      rw [proper_cons] at hpa hpb
      simp only [oldLen_cons, newLen_cons, Edit.old_retain,
        Edit.new_retain] at hba ih
      obtain ⟨c, hc, hs⟩ := ih (hacc.retain j)
        (proper_cons.mpr ⟨by simp; omega, hpa.2⟩) hpb.2 (by omega)
      refine ⟨c, by rw [composeLoop, if_neg hlt, if_neg hne]; exact hc, ?_⟩
      exact .of_alike (Alike.retain_of_le (by omega) a) (.refl _)
        (hs.retain_retain hacc)
  -- insert against delete
  | case9 s a j b acc hlt ih =>
      rw [proper_cons] at hpa hpb
      simp only [oldLen_cons, newLen_cons, Edit.old_delete,
        Edit.new_insert] at hba ih
      obtain ⟨c, hc, hs⟩ := ih hacc hpa.2
        (proper_cons.mpr ⟨by simp; omega, hpb.2⟩) (by omega)
      refine ⟨c, by rw [composeLoop, if_pos hlt]; exact hc, ?_⟩
      exact .of_alike (.refl _) (Alike.delete_of_le (Nat.le_of_lt hlt) b)
        hs.insert_delete
  | case10 s a b acc hlt ih =>
      rw [proper_cons] at hpa hpb
      obtain ⟨c, hc, hs⟩ := ih hacc hpa.2 hpb.2 (by simpa using hba)
      exact ⟨c, by rw [composeLoop, if_neg hlt, if_pos rfl]; exact hc,
        hs.insert_delete⟩
  | case11 s a j b acc hlt hne e he =>
      exfalso
      rw [splitAtChar_eq (by omega)] at he
      cases he
  | case12 s a j b acc hlt hne r s' hsplit ih =>
      rw [proper_cons] at hpa hpb
      have hj : j < s.length := by omega
      rw [splitAtChar_eq hj] at hsplit
      obtain ⟨rfl, rfl⟩ := Prod.mk.inj (Except.ok.inj hsplit)
      simp only [oldLen_cons, newLen_cons, Edit.old_delete,
        Edit.new_insert, List.length_drop] at hba ih
      obtain ⟨c, hc, hs⟩ := ih hacc
        (proper_cons.mpr ⟨by simp; omega, hpa.2⟩) hpb.2 (by omega)
      refine ⟨c, ?_, ?_⟩
      · rw [composeLoop, if_neg hlt, if_neg hne, splitAtChar_eq hj]
        exact hc
      · have hst := hs.insert_delete (s := s.take j)
        rw [List.length_take, Nat.min_eq_left (Nat.le_of_lt hj)] at hst
        exact .of_alike (Alike.insert_split s j a) (.refl _) hst
  -- insert against retain
  | case13 s a j b acc hlt ih =>
      rw [proper_cons] at hpa hpb
      simp only [oldLen_cons, newLen_cons, Edit.old_retain,
        Edit.new_insert] at hba ih
      obtain ⟨c, hc, hs⟩ := ih (hacc.insert s) hpa.2
        (proper_cons.mpr ⟨by simp; omega, hpb.2⟩) (by omega)
      refine ⟨c, by rw [composeLoop, if_pos hlt]; exact hc, ?_⟩
      exact .of_alike (.refl _) (Alike.retain_of_le (Nat.le_of_lt hlt) b)
        (hs.insert_retain hacc)
  | case14 s a b acc hlt ih =>
      rw [proper_cons] at hpa hpb
      obtain ⟨c, hc, hs⟩ := ih (hacc.insert s) hpa.2 hpb.2
        (by simpa using hba)
      exact ⟨c, by rw [composeLoop, if_neg hlt, if_pos rfl]; exact hc,
        hs.insert_retain hacc⟩
  | case15 s a j b acc hlt hne e he =>
      exfalso
      rw [splitAtChar_eq (by omega)] at he
      cases he
  | case16 s a j b acc hlt hne r s' hsplit ih =>
      rw [proper_cons] at hpa hpb
      have hj : j < s.length := by omega
      rw [splitAtChar_eq hj] at hsplit
      obtain ⟨rfl, rfl⟩ := Prod.mk.inj (Except.ok.inj hsplit)
      simp only [oldLen_cons, newLen_cons, Edit.old_retain,
        Edit.new_insert, List.length_drop] at hba ih
      obtain ⟨c, hc, hs⟩ := ih (hacc.insert _)
        (proper_cons.mpr ⟨by simp; omega, hpa.2⟩) hpb.2 (by omega)
      refine ⟨c, ?_, ?_⟩
      · rw [composeLoop, if_neg hlt, if_neg hne, splitAtChar_eq hj]
        exact hc
      · have hst := hs.insert_retain hacc
        rw [List.length_take, Nat.min_eq_left (Nat.le_of_lt hj)] at hst
        exact .of_alike (Alike.insert_split s j a) (.refl _) hst
  -- retain against delete
  | case17 i a j b acc hij ih =>
      rw [proper_cons] at hpa hpb
      simp only [oldLen_cons, newLen_cons, Edit.old_delete,
        Edit.new_retain] at hba ih
      obtain ⟨c, hc, hs⟩ := ih (hacc.delete i) hpa.2
        (proper_cons.mpr ⟨by simp; omega, hpb.2⟩) (by omega)
      refine ⟨c, by rw [composeLoop, if_pos hij]; exact hc, ?_⟩
      exact .of_alike (.refl _) (Alike.delete_of_le (Nat.le_of_lt hij) b)
        (hs.retain_delete hacc)
  | case18 a j b acc hlt ih =>
      rw [proper_cons] at hpa hpb
      obtain ⟨c, hc, hs⟩ := ih (hacc.delete j) hpa.2 hpb.2
        (by simpa using hba)
      exact ⟨c, by rw [composeLoop, if_neg hlt, if_pos rfl]; exact hc,
        hs.retain_delete hacc⟩
  | case19 i a j b acc hlt hne ih =>
      rw [proper_cons] at hpa hpb
      simp only [oldLen_cons, newLen_cons, Edit.old_delete,
        Edit.new_retain] at hba ih
      obtain ⟨c, hc, hs⟩ := ih (hacc.delete j)
        (proper_cons.mpr ⟨by simp; omega, hpa.2⟩) hpb.2 (by omega)
      refine ⟨c, by rw [composeLoop, if_neg hlt, if_neg hne]; exact hc, ?_⟩
      exact .of_alike (Alike.retain_of_le (by omega) a) (.refl _)
        (hs.retain_delete hacc)

-- == the whole

/-- Well-formed change sets compose to a well-formed one. -/
private theorem compose_wellFormed {a b : ChangeSet} (ha : a.WellFormed)
    (hb : b.WellFormed) (hlen : a.lenAfter = b.len)
    (hna : a.changes ≠ []) (hnb : b.changes ≠ []) :
    ∃ c, a.compose b = .ok c ∧ Composes withCapacity a.changes b.changes c := by
  obtain ⟨c, hc, hs⟩ := composeLoop_spec a.changes b.changes withCapacity
    wellFormed_withCapacity ha.proper hb.proper
    (by rw [ha.new, hb.old, hlen])
  have hcl : c.len = a.len := by
    rw [hs.len, ha.old]
    exact Nat.zero_add _
  refine ⟨c, ?_, hs⟩
  unfold compose
  simp [hlen, hna, hnb, hc, hcl]

/-- Composition along a chain of texts: the composite carries the first
text where the two change sets carry it one after the other. -/
theorem Carries.compose {a b : ChangeSet} {t u v : Rope}
    (ha : a.Carries t u) (hb : b.Carries u v) :
    ∃ c, a.compose b = .ok c ∧ c.Carries t v := by
  have hlen : a.lenAfter = b.len := by rw [ha.lenAfter, hb.len]
  by_cases hna : a.changes = []
  · -- the first is an identity: the second is the composite
    have htu : t = u := by
      have := ha.run
      rwa [hna] at this
    subst htu
    refine ⟨b, ?_, hb⟩
    unfold ChangeSet.compose
    simp [hlen, hna]
  by_cases hnb : b.changes = []
  · have huv : u = v := by
      have := hb.run
      rwa [hnb] at this
    subst huv
    refine ⟨a, ?_, ha⟩
    unfold ChangeSet.compose
    simp [hlen, hna, hnb]
  have hwa : a.WellFormed := ha.valid.resolve_right fun h => hna h.1
  have hwb : b.WellFormed := hb.valid.resolve_right fun h => hnb h.1
  obtain ⟨c, hc, hs⟩ := compose_wellFormed hwa hwb hlen hna hnb
  refine ⟨c, hc, .inl hs.wellFormed, ?_, ?_⟩
  · rw [hs.len, hwa.old, ha.len]
    exact Nat.zero_add _
  · have hr := hs.run [] t rfl (by rw [hwa.old, ha.len])
    rw [List.nil_append, ha.run, hb.run] at hr
    exact hr

/-- What is composed has lengths that meet. -/
theorem len_of_compose {a b c : ChangeSet} (h : a.compose b = .ok c) :
    a.lenAfter = b.len := by
  unfold ChangeSet.compose at h
  rw [bind_eq_ok] at h
  obtain ⟨_, hassert, -⟩ := h
  exact beq_iff_eq.mp (assert_eq_ok.mp hassert)

/-- A composite of well-formed change sets is well formed. -/
theorem WellFormed.of_compose {a b c : ChangeSet} (ha : a.WellFormed)
    (hb : b.WellFormed) (h : a.compose b = .ok c) : c.WellFormed := by
  have hlen := len_of_compose h
  by_cases hna : a.changes = []
  · unfold ChangeSet.compose at h
    simp [hlen, hna] at h
    exact h ▸ hb
  by_cases hnb : b.changes = []
  · unfold ChangeSet.compose at h
    simp [hlen, hna, hnb] at h
    exact h ▸ ha
  obtain ⟨c', hc', hs⟩ := compose_wellFormed ha hb hlen hna hnb
  rw [h] at hc'
  injection hc' with hc'
  exact hc' ▸ hs.wellFormed

/-- `compose` on what the builders make, and on identities: it meets no
`unreachable!` arm and no failed split, its lengths are those of the
ends, and applying its result is applying one change set after the
other. -/
theorem compose_apply {a b : ChangeSet} (ha : a.Built ∨ a.IsIdentity)
    (hb : b.Built ∨ b.IsIdentity) (hlen : a.lenAfter = b.len) {t : Rope}
    (ht : t.length = a.len) :
    ∃ c u v, a.compose b = .ok c ∧ c.len = a.len
      ∧ c.lenAfter = b.lenAfter ∧ a.apply t = .ok (true, u)
      ∧ b.apply u = .ok (true, v) ∧ c.apply t = .ok (true, v) := by
  have hva : a.Valid := ha.imp_left Built.wellFormed
  have hvb : b.Valid := hb.imp_left Built.wellFormed
  have hca := hva.carries ht.symm
  have hcb := hvb.carries (t := Script.run a.changes t)
    (by rw [hva.length_run ht.symm, hlen])
  obtain ⟨c, hc, hcc⟩ := hca.compose hcb
  exact ⟨c, _, _, hc, by rw [hcc.len, ht], by rw [hcc.lenAfter, hcb.lenAfter],
    hca.apply, hcb.apply, hcc.apply⟩

/-- Appending to a word and then replacing its head, as one change. -/
theorem compose_apply_word :
    let a := (withCapacity.retain 2).insert ['!', '?']
    let b := ((withCapacity.insert ['H']).delete 1).retain 3
    ∃ c u v, a.compose b = .ok c ∧ c.len = a.len
      ∧ c.lenAfter = b.lenAfter ∧ a.apply ['h', 'i'] = .ok (true, u)
      ∧ b.apply u = .ok (true, v)
      ∧ c.apply ['h', 'i'] = .ok (true, v) :=
  compose_apply (.inl (.insert _ (.retain _ .withCapacity)))
    (.inl (.retain _ (.delete _ (.insert _ .withCapacity)))) rfl rfl

/-- What is composed acts as one change set after the other. -/
theorem run_of_compose {a b c : ChangeSet} {t u v : Rope}
    (h : a.compose b = .ok c) (ha : a.Carries t u) (hb : b.Carries u v) :
    c.Carries t v := by
  obtain ⟨c', hc, hcarries⟩ := ha.compose hb
  rw [h] at hc
  cases hc
  exact hcarries

/-- Three change sets, one behind the other, compose from either end, to
what acts alike on every text. -/
theorem compose_assoc {a b c : ChangeSet} (ha : a.Valid) (hb : b.Valid)
    (hc : c.Valid) (hab : a.lenAfter = b.len) (hbc : b.lenAfter = c.len) :
    ∃ ab bc l r, a.compose b = .ok ab ∧ b.compose c = .ok bc ∧
      ab.compose c = .ok l ∧ a.compose bc = .ok r ∧
      l.len = r.len ∧ l.lenAfter = r.lenAfter ∧
      ∀ t, t.length = a.len → ∃ u, l.apply t = .ok (true, u) ∧
        r.apply t = .ok (true, u) := by
  have hchain (t : Rope) (ht : t.length = a.len) : ∃ x y z,
      a.Carries t x ∧ b.Carries x y ∧ c.Carries y z := by
    have hx := ha.carries ht.symm
    have hy := hb.carries (by rw [← hab, hx.lenAfter])
    exact ⟨_, _, _, hx, hy, hc.carries (by rw [← hbc, hy.lenAfter])⟩
  obtain ⟨x, y, z, hx, hy, hz⟩ :=
    hchain (List.replicate a.len ' ') List.length_replicate
  obtain ⟨ab, hcab, hab⟩ := hx.compose hy
  obtain ⟨bc, hcbc, hbc⟩ := hy.compose hz
  obtain ⟨l, hl, hlz⟩ := hab.compose hz
  obtain ⟨r, hr, hrz⟩ := hx.compose hbc
  refine ⟨ab, bc, l, r, hcab, hcbc, hl, hr, by rw [hlz.len, hrz.len],
    by rw [hlz.lenAfter, hrz.lenAfter], fun t ht => ?_⟩
  obtain ⟨x, y, z, hx, hy, hz⟩ := hchain t ht
  exact ⟨z, (run_of_compose hl (run_of_compose hcab hx hy) hz).apply,
    (run_of_compose hr hx (run_of_compose hcbc hy hz)).apply⟩

/-- A word is put in, marked and cut. -/
theorem compose_assoc_word :
    let a := withCapacity.insert ['h', 'i']
    let b := (withCapacity.retain 2).insert ['!']
    let c := (withCapacity.delete 1).retain 2
    ∃ ab bc l r, a.compose b = .ok ab ∧ b.compose c = .ok bc ∧
      ab.compose c = .ok l ∧ a.compose bc = .ok r ∧ l.apply [] = r.apply [] := by
  obtain ⟨ab, bc, l, r, hab, hbc, hl, hr, -, -, hrun⟩ := compose_assoc
    (.inl (Built.insert ['h', 'i'] .withCapacity).wellFormed)
    (.inl (Built.insert ['!'] (.retain 2 .withCapacity)).wellFormed)
    (.inl (Built.retain 2 (.delete 1 .withCapacity)).wellFormed) rfl rfl
  obtain ⟨u, hleft, hright⟩ := hrun [] rfl
  exact ⟨ab, bc, l, r, hab, hbc, hl, hr, hleft.trans hright.symm⟩

end ChangeSet

end Zmax
