/-
Edit scripts over an arbitrary alphabet: a list of retain / delete /
insert steps read left to right against a text, and what such a list
does to it. Nothing here knows who builds the scripts or why; the file
is the algebra every builder, composer and inverter needs.

# The meaning

`run es t` walks `es` along `t`. A script that runs out keeps the rest
of the text, so the empty script is the identity on every text. The two
counts `oldLen` and `newLen` say how much of the old text a script
consumes and how much new text it writes; `length_run` relates them to
the texts.

# What is proved

- `run_append`: a concatenated script works on two pieces of the text.
- `kept`, where a letter that is not deleted ends up: as the same letter
  (`getElem?_run_kept`).
- `Alike`, the equivalence of scripts that differ only in how their
  steps are cut and ordered. It licenses a builder to merge and reorder
  its last steps and a walker to consume a step piece by piece, and
  `Alike.sound` says that nothing observable depends on it.
- `inverse`, the script that leads back. It is an involution
  (`inverse_inverse`), it undoes (`run_inverse`), and it respects
  `Alike`.
-/
import Mathlib.Data.List.Basic

namespace Script

variable {α : Type*}

-- == the steps

/-- One step of an edit script. -/
inductive Edit (α : Type*) where
  | retain (n : Nat)
  | delete (n : Nat)
  | insert (s : List α)
  deriving DecidableEq, Repr

/-- How much of the old text a step consumes. -/
def Edit.old : Edit α → Nat
  | .retain n => n
  | .delete n => n
  | .insert _ => 0

/-- How much new text a step writes. -/
def Edit.new : Edit α → Nat
  | .retain n => n
  | .delete _ => 0
  | .insert s => s.length

/-- A step that does something: it consumes or writes at least one
letter. -/
def Edit.Proper (e : Edit α) : Prop := 0 < e.old + e.new

instance (e : Edit α) : Decidable e.Proper :=
  inferInstanceAs (Decidable (0 < _))

@[simp] theorem Edit.old_retain (n : Nat) : (retain n : Edit α).old = n := rfl
@[simp] theorem Edit.old_delete (n : Nat) : (delete n : Edit α).old = n := rfl
@[simp] theorem Edit.old_insert (s : List α) : (insert s).old = 0 := rfl
@[simp] theorem Edit.new_retain (n : Nat) : (retain n : Edit α).new = n := rfl
@[simp] theorem Edit.new_delete (n : Nat) : (delete n : Edit α).new = 0 := rfl
@[simp] theorem Edit.new_insert (s : List α) :
    (insert s).new = s.length := rfl

@[simp] theorem Edit.proper_retain (n : Nat) :
    (retain n : Edit α).Proper ↔ 0 < n := by
  simp only [Edit.Proper, Edit.old_retain, Edit.new_retain]
  omega

@[simp] theorem Edit.proper_delete (n : Nat) :
    (delete n : Edit α).Proper ↔ 0 < n := by
  unfold Edit.Proper
  simp

@[simp] theorem Edit.proper_insert (s : List α) :
    (insert s).Proper ↔ s ≠ [] := by
  unfold Edit.Proper
  simp [List.length_pos_iff]

-- == the counts

/-- Letters of the old text a script consumes. -/
def oldLen : List (Edit α) → Nat
  | [] => 0
  | e :: es => e.old + oldLen es

/-- Letters a script writes. -/
def newLen : List (Edit α) → Nat
  | [] => 0
  | e :: es => e.new + newLen es

@[simp] theorem oldLen_nil : oldLen ([] : List (Edit α)) = 0 := rfl

@[simp] theorem newLen_nil : newLen ([] : List (Edit α)) = 0 := rfl

@[simp] theorem oldLen_cons (e : Edit α) (es : List (Edit α)) :
    oldLen (e :: es) = e.old + oldLen es := rfl

@[simp] theorem newLen_cons (e : Edit α) (es : List (Edit α)) :
    newLen (e :: es) = e.new + newLen es := rfl

@[simp] theorem oldLen_append (es fs : List (Edit α)) :
    oldLen (es ++ fs) = oldLen es + oldLen fs := by
  induction es with
  | nil => rw [List.nil_append, oldLen_nil, Nat.zero_add]
  | cons e es ih =>
      rw [List.cons_append, oldLen_cons, oldLen_cons, ih, Nat.add_assoc]

@[simp] theorem newLen_append (es fs : List (Edit α)) :
    newLen (es ++ fs) = newLen es + newLen fs := by
  induction es with
  | nil => rw [List.nil_append, newLen_nil, Nat.zero_add]
  | cons e es ih =>
      rw [List.cons_append, newLen_cons, newLen_cons, ih, Nat.add_assoc]

-- == the meaning

/-- What a script makes of a text. -/
def run : List (Edit α) → List α → List α
  | [], t => t
  | .retain n :: es, t => t.take n ++ run es (t.drop n)
  | .delete n :: es, t => run es (t.drop n)
  | .insert s :: es, t => s ++ run es t

@[simp] theorem run_nil (t : List α) : run [] t = t := rfl

@[simp] theorem run_retain (n : Nat) (es : List (Edit α)) (t : List α) :
    run (.retain n :: es) t = t.take n ++ run es (t.drop n) := rfl

@[simp] theorem run_delete (n : Nat) (es : List (Edit α)) (t : List α) :
    run (.delete n :: es) t = run es (t.drop n) := rfl

@[simp] theorem run_insert (s : List α) (es : List (Edit α))
    (t : List α) : run (.insert s :: es) t = s ++ run es t := rfl

variable {es fs : List (Edit α)} {t : List α} {i : Nat}

/-- The text a script leaves is the old one less what it consumes plus
what it writes. -/
theorem length_run (h : oldLen es ≤ t.length) :
    (run es t).length + oldLen es = t.length + newLen es := by
  induction es generalizing t with
  | nil => simp
  | cons e es ih =>
      cases e with
      | retain n =>
          simp only [oldLen_cons, Edit.old_retain] at h
          have hrest := @ih (t.drop n) (by rw [List.length_drop]; omega)
          simp only [run_retain, List.length_append, List.length_take,
            List.length_drop, oldLen_cons, newLen_cons, Edit.old_retain,
            Edit.new_retain] at hrest ⊢
          omega
      | delete n =>
          simp only [oldLen_cons, Edit.old_delete] at h
          have hrest := @ih (t.drop n) (by rw [List.length_drop]; omega)
          simp only [run_delete, List.length_drop, oldLen_cons, newLen_cons,
            Edit.old_delete, Edit.new_delete] at hrest ⊢
          omega
      | insert s =>
          simp only [oldLen_cons, Edit.old_insert] at h
          have hrest := @ih t (by omega)
          simp only [run_insert, List.length_append, oldLen_cons,
            newLen_cons, Edit.old_insert, Edit.new_insert] at hrest ⊢
          omega

/-- A script that consumes the whole text leaves exactly what it
writes. -/
theorem length_run_of_oldLen_eq (h : oldLen es = t.length) :
    (run es t).length = newLen es := by
  have := length_run (Nat.le_of_eq h)
  omega

-- == concatenation

/-- A concatenated script works on two pieces of the text: the part its
first half consumes, and the rest. -/
theorem run_append (fs : List (Edit α)) {u : List α}
    (h : oldLen es = t.length) :
    run (es ++ fs) (t ++ u) = run es t ++ run fs u := by
  induction es generalizing t with
  | nil =>
      have ht : t = [] := List.length_eq_zero_iff.mp (by simpa using h.symm)
      subst ht
      rfl
  | cons e es ih =>
      cases e with
      | retain n =>
          simp only [oldLen_cons, Edit.old_retain] at h
          have hrest := @ih (t.drop n) (by rw [List.length_drop]; omega)
          have hn : n ≤ t.length := by omega
          simp only [List.cons_append, run_retain,
            List.take_append_of_le_length hn,
            List.drop_append_of_le_length hn, hrest, List.append_assoc]
      | delete n =>
          simp only [oldLen_cons, Edit.old_delete] at h
          have hrest := @ih (t.drop n) (by rw [List.length_drop]; omega)
          have hn : n ≤ t.length := by omega
          simp only [List.cons_append, run_delete,
            List.drop_append_of_le_length hn, hrest]
      | insert s =>
          simp only [oldLen_cons, Edit.old_insert, Nat.zero_add] at h
          simp only [List.cons_append, run_insert, ih h, List.append_assoc]

-- == what is retained

/-- Where a script leaves the letter at an index, unless it deletes
it. -/
def kept : List (Edit α) → Nat → Option Nat
  | [], i => some i
  | .retain n :: es, i =>
      if i < n then some i else (kept es (i - n)).map (· + n)
  | .delete n :: es, i => if i < n then none else kept es (i - n)
  | .insert s :: es, i => (kept es i).map (· + s.length)

attribute [grind =] kept

/-- A retained letter is the same letter. -/
theorem getElem?_run_kept {j : Nat} (h : oldLen es ≤ t.length)
    (hk : kept es i = some j) : (run es t)[j]? = t[i]? := by
  induction es generalizing t i j with
  | nil =>
      cases hk
      rfl
  | cons e es ih =>
      cases e with
      | retain n =>
          simp only [oldLen_cons, Edit.old_retain] at h
          have hlen : (t.take n).length = n := by
            rw [List.length_take]
            omega
          rw [kept] at hk
          rw [run_retain]
          split at hk
          · next hlt =>
              cases hk
              rw [List.getElem?_append_left (by omega),
                List.getElem?_take_of_lt hlt]
          · next hge =>
              obtain ⟨j', hj', rfl⟩ := Option.map_eq_some_iff.mp hk
              rw [List.getElem?_append_right (by omega), hlen,
                Nat.add_sub_cancel,
                ih (by rw [List.length_drop]; omega) hj', List.getElem?_drop,
                Nat.add_sub_cancel' (Nat.le_of_not_lt hge)]
      | delete n =>
          simp only [oldLen_cons, Edit.old_delete] at h
          rw [kept] at hk
          split at hk
          · cases hk
          · next hge =>
              rw [run_delete, ih (by rw [List.length_drop]; omega) hk,
                List.getElem?_drop,
                Nat.add_sub_cancel' (Nat.le_of_not_lt hge)]
      | insert s =>
          simp only [oldLen_cons, Edit.old_insert, Nat.zero_add] at h
          rw [kept] at hk
          obtain ⟨j', hj', rfl⟩ := Option.map_eq_some_iff.mp hk
          rw [run_insert, List.getElem?_append_right (Nat.le_add_left _ _),
            Nat.add_sub_cancel, ih h hj']

/-- What the first half of a concatenated script consumes, it retains
as on its own. -/
theorem kept_append_of_lt (fs : List (Edit α)) (hi : i < oldLen es) :
    kept (es ++ fs) i = kept es i := by
  induction es generalizing i with
  | nil => exact absurd hi (Nat.not_lt_zero i)
  | cons e es ih =>
      rw [oldLen_cons] at hi
      cases e with
      | retain n =>
          simp only [Edit.old_retain] at hi
          rw [List.cons_append, kept, kept]
          by_cases hn : i < n
          · rw [if_pos hn, if_pos hn]
          · rw [if_neg hn, if_neg hn, ih (by omega)]
      | delete n =>
          simp only [Edit.old_delete] at hi
          rw [List.cons_append, kept, kept]
          by_cases hn : i < n
          · rw [if_pos hn, if_pos hn]
          · rw [if_neg hn, if_neg hn, ih (by omega)]
      | insert s =>
          simp only [Edit.old_insert, Nat.zero_add] at hi
          rw [List.cons_append, kept, kept, ih hi]

/-- The rest is retained by the second half, behind what the first one
writes. -/
theorem kept_append_of_le (fs : List (Edit α)) (hi : oldLen es ≤ i) :
    kept (es ++ fs) i
      = (kept fs (i - oldLen es)).map (· + newLen es) := by
  induction es generalizing i with
  | nil => simp
  | cons e es ih =>
      rw [oldLen_cons] at hi
      cases e with
      | retain n =>
          simp only [Edit.old_retain] at hi
          rw [List.cons_append, kept, if_neg (by omega), ih (by omega),
            Option.map_map, oldLen_cons, newLen_cons, Edit.old_retain,
            Edit.new_retain, Nat.sub_sub]
          refine congrArg (Option.map · _) (funext fun k => ?_)
          simp only [Function.comp]
          omega
      | delete n =>
          simp only [Edit.old_delete] at hi
          rw [List.cons_append, kept, if_neg (by omega), ih (by omega),
            oldLen_cons, newLen_cons, Edit.old_delete, Edit.new_delete,
            Nat.sub_sub, Nat.zero_add]
      | insert s =>
          simp only [Edit.old_insert, Nat.zero_add] at hi
          rw [List.cons_append, kept, ih hi, Option.map_map, oldLen_cons,
            newLen_cons, Edit.old_insert, Edit.new_insert, Nat.zero_add]
          refine congrArg (Option.map · _) (funext fun k => ?_)
          simp only [Function.comp]
          omega

/-- A letter a script consumes is retained within what it writes. -/
theorem kept_lt {j : Nat} (hi : i < oldLen es) (hk : kept es i = some j) :
    j < newLen es := by
  induction es generalizing i j with
  | nil => exact absurd hi (Nat.not_lt_zero i)
  | cons e es ih =>
      cases e with
      | retain n =>
          simp only [oldLen_cons, newLen_cons, Edit.old_retain,
            Edit.new_retain] at hi ⊢
          rw [kept] at hk
          split at hk
          · cases hk
            omega
          · obtain ⟨j', hj', rfl⟩ := Option.map_eq_some_iff.mp hk
            have := ih (by omega) hj'
            omega
      | delete n =>
          simp only [oldLen_cons, newLen_cons, Edit.old_delete,
            Edit.new_delete, Nat.zero_add] at hi ⊢
          rw [kept] at hk
          split at hk
          · cases hk
          · exact ih (by omega) hk
      | insert s =>
          simp only [oldLen_cons, newLen_cons, Edit.old_insert,
            Edit.new_insert, Nat.zero_add] at hi ⊢
          rw [kept] at hk
          obtain ⟨j', hj', rfl⟩ := Option.map_eq_some_iff.mp hk
          have := ih hi hj'
          omega

-- == equivalence

/-- Scripts that differ only in how their steps are cut and ordered:
void steps come and go, a step may be cut in two, and an insert may pass
a delete. -/
inductive Alike : List (Edit α) → List (Edit α) → Prop
  | refl (es : List (Edit α)) : Alike es es
  | symm {es fs : List (Edit α)} : Alike es fs → Alike fs es
  | trans {es fs gs : List (Edit α)} :
      Alike es fs → Alike fs gs → Alike es gs
  | cons (e : Edit α) {es fs : List (Edit α)} :
      Alike es fs → Alike (e :: es) (e :: fs)
  | retain_zero (es : List (Edit α)) : Alike (.retain 0 :: es) es
  | delete_zero (es : List (Edit α)) : Alike (.delete 0 :: es) es
  | insert_nil (es : List (Edit α)) : Alike (.insert [] :: es) es
  | retain_add (m n : Nat) (es : List (Edit α)) :
      Alike (.retain (m + n) :: es) (.retain m :: .retain n :: es)
  | delete_add (m n : Nat) (es : List (Edit α)) :
      Alike (.delete (m + n) :: es) (.delete m :: .delete n :: es)
  | insert_append (r s : List α) (es : List (Edit α)) :
      Alike (.insert (r ++ s) :: es) (.insert r :: .insert s :: es)
  | swap (n : Nat) (s : List α) (es : List (Edit α)) :
      Alike (.delete n :: .insert s :: es) (.insert s :: .delete n :: es)

/-- Equivalent scripts consume the same, write the same and mean the
same. -/
theorem Alike.sound (h : Alike es fs) :
    oldLen es = oldLen fs ∧ newLen es = newLen fs
      ∧ ∀ t, run es t = run fs t := by
  induction h with
  | refl es => exact ⟨rfl, rfl, fun _ => rfl⟩
  | symm _ ih => exact ⟨ih.1.symm, ih.2.1.symm, fun t => (ih.2.2 t).symm⟩
  | trans _ _ ih₁ ih₂ =>
      exact ⟨ih₁.1.trans ih₂.1, ih₁.2.1.trans ih₂.2.1,
        fun t => (ih₁.2.2 t).trans (ih₂.2.2 t)⟩
  | cons e _ ih =>
      refine ⟨by simp [ih.1], by simp [ih.2.1], fun t => ?_⟩
      cases e <;> simp [ih.2.2]
  | retain_zero es => simp
  | delete_zero es => simp
  | insert_nil es => simp
  | retain_add m n es =>
      exact ⟨by simp [Nat.add_assoc], by simp [Nat.add_assoc],
        fun t => by simp [List.take_add]⟩
  | delete_add m n es =>
      exact ⟨by simp [Nat.add_assoc], by simp, fun t => by simp⟩
  | insert_append r s es =>
      exact ⟨by simp, by simp [Nat.add_assoc], fun t => by simp⟩
  | swap n s es => simp

theorem Alike.old (h : Alike es fs) :
    oldLen es = oldLen fs := h.sound.1

theorem Alike.new (h : Alike es fs) :
    newLen es = newLen fs := h.sound.2.1

theorem Alike.run (h : Alike es fs) (t : List α) :
    Script.run es t = Script.run fs t := h.sound.2.2 t

/-- Alikeness behind a common prefix. -/
theorem Alike.append_left (es : List (Edit α)) {gs : List (Edit α)}
    (h : Alike fs gs) : Alike (es ++ fs) (es ++ gs) := by
  induction es with
  | nil => exact h
  | cons e es ih => exact ih.cons e

/-- Alikeness in front of a common suffix. -/
theorem Alike.append_right (h : Alike es fs) (gs : List (Edit α)) :
    Alike (es ++ gs) (fs ++ gs) := by
  induction h with
  | refl es => exact .refl _
  | symm _ ih => exact ih.symm
  | trans _ _ ih₁ ih₂ => exact ih₁.trans ih₂
  | cons e _ ih => exact ih.cons e
  | retain_zero es => exact .retain_zero _
  | delete_zero es => exact .delete_zero _
  | insert_nil es => exact .insert_nil _
  | retain_add m n es => exact .retain_add m n _
  | delete_add m n es => exact .delete_add m n _
  | insert_append r s es => exact .insert_append r s _
  | swap n s es => exact .swap n s _

/-- Cutting a retain at a length. -/
theorem Alike.retain_of_le {m n : Nat} (h : m ≤ n)
    (es : List (Edit α)) :
    Alike (.retain n :: es) (.retain m :: .retain (n - m) :: es) := by
  have hs := Alike.retain_add m (n - m) es
  rwa [Nat.add_sub_cancel' h] at hs

/-- Cutting a delete at a length. -/
theorem Alike.delete_of_le {m n : Nat} (h : m ≤ n)
    (es : List (Edit α)) :
    Alike (.delete n :: es) (.delete m :: .delete (n - m) :: es) := by
  have hs := Alike.delete_add m (n - m) es
  rwa [Nat.add_sub_cancel' h] at hs

/-- Cutting an insert at an index. -/
theorem Alike.insert_split (s : List α) (m : Nat) (es : List (Edit α)) :
    Alike (.insert s :: es)
      (.insert (s.take m) :: .insert (s.drop m) :: es) := by
  have hs := Alike.insert_append (s.take m) (s.drop m) es
  rwa [List.take_append_drop] at hs

-- == inversion

/-- The script that leads back, for a script read along `t`: what was
deleted is inserted from `t`, what was inserted is deleted. -/
def inverse : List (Edit α) → List α → List (Edit α)
  | [], _ => []
  | .retain n :: es, t => .retain n :: inverse es (t.drop n)
  | .delete n :: es, t => .insert (t.take n) :: inverse es (t.drop n)
  | .insert s :: es, t => .delete s.length :: inverse es t

attribute [grind =] inverse

/-- The way back consumes what the script wrote and writes what it
consumed. -/
theorem length_inverse (h : oldLen es ≤ t.length) :
    oldLen (inverse es t) = newLen es ∧ newLen (inverse es t) = oldLen es := by
  induction es generalizing t with
  | nil => simp [inverse]
  | cons e es ih =>
      rw [oldLen_cons] at h
      cases e with
      | retain n =>
          simp only [Edit.old_retain] at h
          have hrest := @ih (t.drop n) (by rw [List.length_drop]; omega)
          simp [inverse, hrest]
      | delete n =>
          simp only [Edit.old_delete] at h
          obtain ⟨hold, hnew⟩ := @ih (t.drop n)
            (by rw [List.length_drop]; omega)
          constructor
          · rw [inverse, oldLen_cons, newLen_cons, hold]
            rfl
          · rw [inverse, newLen_cons, oldLen_cons, hnew, Edit.new_insert,
              Edit.old_delete, List.length_take]
            omega
      | insert s =>
          simp only [Edit.old_insert] at h
          have hrest := @ih t (by omega)
          simp [inverse, hrest]

/-- The way back leads back. -/
theorem run_inverse (h : oldLen es ≤ t.length) :
    run (inverse es t) (run es t) = t := by
  induction es generalizing t with
  | nil => rfl
  | cons e es ih =>
      rw [oldLen_cons] at h
      cases e with
      | retain n =>
          simp only [Edit.old_retain] at h
          have hn : (t.take n).length = n := by
            rw [List.length_take]
            omega
          have hrest := @ih (t.drop n) (by rw [List.length_drop]; omega)
          rw [inverse, run_retain, run_retain, List.take_left' hn,
            List.drop_left' hn, hrest, List.take_append_drop]
      | delete n =>
          simp only [Edit.old_delete] at h
          have hrest := @ih (t.drop n) (by rw [List.length_drop]; omega)
          rw [inverse, run_delete, run_insert, hrest, List.take_append_drop]
      | insert s =>
          simp only [Edit.old_insert] at h
          rw [inverse, run_insert, run_delete, List.drop_left,
            ih (by omega)]

/-- Going back and forth is the script again. -/
theorem inverse_inverse (h : oldLen es ≤ t.length) :
    inverse (inverse es t) (run es t) = es := by
  induction es generalizing t with
  | nil => rfl
  | cons e es ih =>
      rw [oldLen_cons] at h
      cases e with
      | retain n =>
          simp only [Edit.old_retain] at h
          have hn : (t.take n).length = n := by
            rw [List.length_take]
            omega
          have hrest := @ih (t.drop n) (by rw [List.length_drop]; omega)
          rw [inverse, run_retain, inverse, List.drop_left' hn, hrest]
      | delete n =>
          simp only [Edit.old_delete] at h
          have hn : (t.take n).length = n := by
            rw [List.length_take]
            omega
          have hrest := @ih (t.drop n) (by rw [List.length_drop]; omega)
          rw [inverse, run_delete, inverse, hn, hrest]
      | insert s =>
          simp only [Edit.old_insert] at h
          rw [inverse, run_insert, inverse, List.take_left, List.drop_left,
            ih (by omega)]

/-- Inverses of equivalent scripts are equivalent. -/
theorem Alike.inverse (h : Alike es fs) :
    ∀ t : List α, Alike (Script.inverse es t) (Script.inverse fs t) := by
  induction h with
  | refl es => exact fun t => .refl _
  | symm _ ih => exact fun t => (ih t).symm
  | trans _ _ ih₁ ih₂ => exact fun t => (ih₁ t).trans (ih₂ t)
  | cons e _ ih =>
      intro t
      cases e with
      | retain n => exact (ih (t.drop n)).cons _
      | delete n => exact (ih (t.drop n)).cons _
      | insert s => exact (ih t).cons _
  | retain_zero es => exact fun t => .retain_zero _
  | delete_zero es => exact fun t => .insert_nil _
  | insert_nil es => exact fun t => .delete_zero _
  | retain_add m n es =>
      intro t
      rw [Script.inverse, Script.inverse, Script.inverse, List.drop_drop]
      exact .retain_add m n _
  | delete_add m n es =>
      intro t
      rw [Script.inverse, Script.inverse, Script.inverse, List.drop_drop,
        List.take_add]
      exact .insert_append _ _ _
  | insert_append r s es =>
      intro t
      rw [Script.inverse, Script.inverse, Script.inverse,
        List.length_append]
      exact .delete_add _ _ _
  | swap n s es => exact fun t => (Alike.swap _ _ _).symm

end Script
