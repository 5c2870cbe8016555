/-
`ChangeSet::invert` leads back, and where it does not.

The loop of `invert` feeds the builders with the inverse script, so its
result is the inverse up to merging and reordering (`invertLoop_alike`),
and everything observable follows from `Script.inverse`.

# The operation-free change set

`ChangeSet::new(doc)` has no operations but the lengths of `doc`. Its
inverse is built from nothing and records the length zero on both sides.
On a non-empty text that is not the length of the changed text: the
inverse is refused by `apply`, and `compose` fails its assertion on it.
`invert_law_iff` says this is the only way to miss: the law holds exactly
for the change sets with an operation and those on the empty text.
-/
import Zmax.Core.Proofs.Compose

namespace Zmax

open Script

namespace ChangeSet

-- == the loop

/-- The loop, from the end of `p` in the original text `p ++ t`: the
builders receive the inverse of the operations left. -/
theorem invertLoop_alike (ops : List Operation) (p t : Rope)
    (acc : ChangeSet) (hacc : acc.WellFormed) (ht : oldLen ops ≤ t.length) :
    ∃ c, invertLoop (p ++ t) ops p.length acc = .ok c ∧ c.WellFormed
      ∧ Alike c.changes (acc.changes ++ inverse ops t) := by
  induction ops generalizing p t acc with
  | nil =>
      refine ⟨acc, rfl, hacc, ?_⟩
      rw [inverse, List.append_nil]
      exact .refl _
  | cons e ops ih =>
      rw [oldLen_cons] at ht
      cases e with
      | retain n =>
          simp only [Edit.old_retain] at ht
          obtain ⟨c, hc, hwf, heq⟩ := ih (p ++ t.take n) (t.drop n)
            (acc.retain n) (hacc.retain n) (by rw [List.length_drop]; omega)
          rw [List.append_assoc, List.take_append_drop, List.length_append,
            List.length_take, Nat.min_eq_left (by omega)] at hc
          refine ⟨c, hc, hwf, heq.trans ?_⟩
          have hstep := (retain_alike acc n).append_right
            (inverse ops (t.drop n))
          rwa [List.append_assoc] at hstep
      | delete n =>
          simp only [Edit.old_delete] at ht
          obtain ⟨c, hc, hwf, heq⟩ := ih (p ++ t.take n) (t.drop n)
            (acc.insert (t.take n)) (hacc.insert _)
            (by rw [List.length_drop]; omega)
          rw [List.append_assoc, List.take_append_drop, List.length_append,
            List.length_take, Nat.min_eq_left (by omega)] at hc
          refine ⟨c, ?_, hwf, heq.trans ?_⟩
          · rw [invertLoop, if_pos (by rw [List.length_append]; omega),
              List.drop_left]
            exact hc
          · have hstep := (insert_alike acc (t.take n)).append_right
              (inverse ops (t.drop n))
            rwa [List.append_assoc] at hstep
      | insert s =>
          simp only [Edit.old_insert, Nat.zero_add] at ht
          obtain ⟨c, hc, hwf, heq⟩ := ih p t (acc.delete s.length)
            (hacc.delete _) ht
          refine ⟨c, hc, hwf, heq.trans ?_⟩
          have hstep := (delete_alike acc s.length).append_right
            (inverse ops t)
          rwa [List.append_assoc] at hstep

variable {c : ChangeSet} {t u : Rope}

/-- The inverse of a well-formed change set: well formed, with the
inverse script for operations. -/
theorem WellFormed.invert (h : c.WellFormed) (ht : c.len = t.length) :
    ∃ i, c.invert t = .ok i ∧ i.WellFormed
      ∧ Alike i.changes (inverse c.changes t) := by
  obtain ⟨i, hi, hwf, heq⟩ := invertLoop_alike c.changes [] t withCapacity
    wellFormed_withCapacity (Nat.le_of_eq (h.old.trans ht))
  refine ⟨i, ?_, hwf, heq⟩
  unfold ChangeSet.invert
  simp only [ht, beq_self_eq_true, assert_true, ok_bind]
  exact hi

/-- The inverse of a well-formed change set carries the text back. -/
theorem WellFormed.carries_invert (h : c.WellFormed) (hc : c.Carries t u) :
    ∃ i, c.invert t = .ok i ∧ i.Carries u t
      ∧ Alike i.changes (inverse c.changes t) := by
  obtain ⟨i, hi, hwf, heq⟩ := h.invert hc.len
  have hle : oldLen c.changes ≤ t.length :=
    Nat.le_of_eq (h.old.trans hc.len)
  refine ⟨i, hi, ⟨.inl hwf, ?_, ?_⟩, heq⟩
  · rw [← hwf.old, heq.old, (length_inverse hle).1, h.new, hc.lenAfter]
  · rw [heq.run, ← hc.run, run_inverse hle]

/-- An operation-free change set has the inverse of the empty text,
whatever its length. -/
theorem invert_of_nil (h : c.changes = []) (ht : c.len = t.length) :
    c.invert t = .ok withCapacity := by
  unfold ChangeSet.invert
  simp [ht, h, invertLoop]

/-- A change set with an operation, or on the empty text: the exact
condition under which `invert` leads back. -/
def Invertible (c : ChangeSet) : Prop := c.changes ≠ [] ∨ c.len = 0

/-- Valid and invertible change sets are well formed. -/
theorem Valid.wellFormed (h : c.Valid) (hi : c.Invertible) : c.WellFormed := by
  rcases h with h | h
  · exact h
  · rcases hi with hne | h0
    · exact absurd h.1 hne
    · refine ⟨?_, ?_, ?_⟩
      · rw [h.1, h0]
        rfl
      · rw [h.1, h.2, h0]
        rfl
      · intro e he
        rw [h.1] at he
        cases he

/-- Changes that carry a text are well formed unless they are empty. -/
theorem Carries.wellFormed (h : c.Carries t u) (he : ¬ c.isEmpty) :
    c.WellFormed := by
  refine h.valid.wellFormed (.inl ?_)
  intro hnil
  exact he (by simp [isEmpty, hnil])

/-- Empty changes keep the text. -/
theorem Carries.unchanged (h : c.Carries t u) (he : c.isEmpty) : t = u := by
  rw [← h.run]
  simp only [isEmpty, Bool.or_eq_true, List.isEmpty_iff, beq_iff_eq] at he
  rcases he with he | he
  · rw [he]
    rfl
  · rw [he, run_retain, run_nil, List.take_append_drop]

/-- Inversion along an edge between two texts. -/
theorem Carries.invert (h : c.Carries t u) (hi : c.Invertible) :
    ∃ i, c.invert t = .ok i ∧ i.Carries u t := by
  obtain ⟨i, hx, hc, -⟩ := (h.valid.wellFormed hi).carries_invert h
  exact ⟨i, hx, hc⟩

-- == the public API

/-- What change lists build is well formed. -/
theorem fromChangesLoop_wellFormed :
    ∀ {changes : List Change} {last : Nat} {cs : ChangeSet} {r},
      cs.WellFormed → fromChangesLoop changes last cs = .ok r →
      r.2.WellFormed := by
  intro changes
  induction changes with
  | nil =>
      intro last cs r hcs h
      injection h with h
      subst h
      exact hcs
  | cons change rest ih =>
      intro last cs r hcs h
      obtain ⟨start, stop, tendril⟩ := change
      simp only [fromChangesLoop, bind_eq_ok] at h
      obtain ⟨-, -, -, -, gap, -, span, -, h⟩ := h
      cases tendril with
      | none => exact ih ((hcs.retain gap).delete span) h
      | some s => exact ih (((hcs.retain gap).insert s).delete span) h

theorem fromChanges_wellFormed {doc : Rope} {changes : List Change}
    (h : fromChanges doc changes = .ok c) : c.WellFormed := by
  simp only [fromChanges, bind_eq_ok] at h
  obtain ⟨⟨last, cs⟩, hloop, gap, -, h⟩ := h
  injection h with h
  subst h
  exact (fromChangesLoop_wellFormed wellFormed_withCapacity hloop).retain gap

/-- The change sets the public API hands out. -/
inductive Obtainable : ChangeSet → Prop
  | new (doc : Rope) : Obtainable (new doc)
  | fromChanges {doc : Rope} {changes : List Change} {c : ChangeSet} :
      fromChanges doc changes = .ok c → Obtainable c
  | compose {a b c : ChangeSet} :
      Obtainable a → Obtainable b → a.compose b = .ok c → Obtainable c
  | invert {c i : ChangeSet} {doc : Rope} :
      Obtainable c → c.invert doc = .ok i → Obtainable i

/-- Composites of valid change sets are valid. -/
theorem Valid.of_compose {a b : ChangeSet} (ha : a.Valid) (hb : b.Valid)
    (h : a.compose b = .ok c) : c.Valid := by
  have hlen := len_of_compose h
  have ht : a.len = (List.replicate a.len ' ').length := by simp
  obtain ⟨c', hc', hcc⟩ := (ha.carries ht).compose
    (hb.carries (by rw [ha.length_run ht, hlen]))
  rw [h] at hc'
  injection hc' with hc'
  exact hc' ▸ hcc.valid

/-- Inverses of valid change sets are valid. -/
theorem Valid.of_invert {i : ChangeSet} {doc : Rope} (hc : c.Valid)
    (h : c.invert doc = .ok i) : i.Valid := by
  have hlen : c.len = doc.length := by
    unfold ChangeSet.invert at h
    rw [bind_eq_ok] at h
    obtain ⟨_, hassert, -⟩ := h
    exact (beq_iff_eq.mp (assert_eq_ok.mp hassert)).symm
  rcases hc with hwf | hid
  · obtain ⟨i', hi', hwf', -⟩ := hwf.invert hlen
    rw [h] at hi'
    injection hi' with hi'
    exact .inl (hi' ▸ hwf')
  · rw [invert_of_nil hid.1 hlen] at h
    injection h with h
    exact .inl (h ▸ wellFormed_withCapacity)

theorem Obtainable.valid (h : Obtainable c) : c.Valid := by
  induction h with
  | new doc => exact .inr (isIdentity_new doc)
  | fromChanges h => exact .inl (fromChanges_wellFormed h)
  | compose _ _ h iha ihb => exact iha.of_compose ihb h
  | invert _ h ih => exact ih.of_invert h

-- == the law

/-- The law of inversion, at a text: the inverse has the lengths swapped,
applies to the changed text and gives `t` back, composes with `c` to
something that keeps `t`, and the inverse of the inverse acts like `c` on
every text. -/
def InvertLaw (c : ChangeSet) (t : Rope) : Prop :=
  ∃ i u k j,
    c.invert t = .ok i ∧ i.len = c.lenAfter ∧ i.lenAfter = c.len
    ∧ c.apply t = .ok (true, u) ∧ i.apply u = .ok (true, t)
    ∧ c.compose i = .ok k ∧ k.apply t = .ok (true, t)
    ∧ i.invert u = .ok j
    ∧ ∀ t', t'.length = c.len → j.apply t' = c.apply t'

/-- The inverse of the inverse has the operations of the change set, up
to merging and reordering. -/
private theorem invert_invert {i : ChangeSet} (hwf : c.WellFormed)
    (hc : c.Carries t u) (hi : i.Carries u t)
    (heq : Alike i.changes (inverse c.changes t)) (hwi : i.WellFormed) :
    ∃ j, i.invert u = .ok j ∧ j.WellFormed ∧ Alike j.changes c.changes := by
  obtain ⟨j, hj, hwj, heqj⟩ := hwi.invert hi.len
  refine ⟨j, hj, hwj, heqj.trans ?_⟩
  have hback := heq.inverse u
  have hle : oldLen c.changes ≤ t.length :=
    Nat.le_of_eq (hwf.old.trans hc.len)
  rwa [← hc.run, inverse_inverse hle, hc.run] at hback

/-- Well-formed change sets obey the law. -/
private theorem WellFormed.invertLaw (h : c.WellFormed)
    (ht : t.length = c.len) : InvertLaw c t := by
  have hc := Valid.carries (.inl h) ht.symm
  obtain ⟨i, hi, hwi, heq⟩ := h.invert hc.len
  obtain ⟨i', hi', hci, -⟩ := h.carries_invert hc
  rw [hi] at hi'
  injection hi' with hi'
  subst hi'
  obtain ⟨k, hk, hck⟩ := hc.compose hci
  obtain ⟨j, hj, hwj, heqj⟩ := invert_invert h hc hci heq hwi
  refine ⟨i, _, k, j, hi, ?_, ?_, hc.apply, hci.apply, hk, hck.apply, hj, ?_⟩
  · rw [hci.len, hc.lenAfter]
  · rw [hci.lenAfter, hc.len]
  · intro t' ht'
    have hjl : j.len = c.len := by rw [← hwj.old, heqj.old, h.old]
    have hct' := Valid.carries (.inl h) ht'.symm
    have hjt' := Valid.carries (.inl hwj) (hjl.trans ht'.symm)
    rw [heqj.run] at hjt'
    rw [hjt'.apply, hct'.apply]

/-- `invert` obeys its law exactly on the change sets that have an
operation or apply to the empty text. -/
theorem invert_law_iff {c : ChangeSet} (h : Obtainable c) {t : Rope}
    (ht : t.length = c.len) : InvertLaw c t ↔ c.Invertible := by
  constructor
  · rintro ⟨i, u, k, j, hi, hil, -, -⟩
    by_cases hnil : c.changes = []
    · right
      rw [invert_of_nil hnil ht.symm] at hi
      injection hi with hi
      subst hi
      rcases h.valid with hwf | hid
      · rw [← hwf.old, hnil]
        rfl
      · rw [← hid.2]
        exact hil.symm
    · exact .inl hnil
  · intro hinv
    exact (h.valid.wellFormed hinv).invertLaw ht

/-- The law at a replacement. -/
theorem invert_law_iff_replacement :
    InvertLaw ⟨[.insert ['c', 'd'], .delete 1, .retain 1], 2, 3⟩ ['a', 'b']
      ↔ Invertible ⟨[.insert ['c', 'd'], .delete 1, .retain 1], 2, 3⟩ :=
  invert_law_iff (@Obtainable.fromChanges ['a', 'b']
    [(0, 1, some ['c', 'd'])] _ (by decide)) rfl

/-- The law fails for the operation-free change set of a one-char text:
its inverse records the length zero. -/
theorem not_invertLaw_new : ¬ InvertLaw (new ['a']) ['a'] := by
  rintro ⟨i, u, k, j, hi, hil, -⟩
  rw [invert_of_nil rfl rfl] at hi
  injection hi with hi
  subst hi
  exact absurd hil (by decide)

end ChangeSet

end Zmax
