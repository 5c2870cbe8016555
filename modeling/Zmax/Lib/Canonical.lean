/-
A normal form of edit scripts.

`normalForm` builds a script from its end, merging every step into what
follows and putting inserts in front of deletes. Scripts are alike if and
only if they have the same normal form (`alike_iff_normalForm`), so
whatever is read off the steps one by one can be read off the normal form
of any other script alike: a script that is `Canonical` is its own.
-/
import Mathlib.Data.List.Chain
import Zmax.Lib.Script

namespace Script

variable {α : Type*}

-- == the normal form

/-- Retain `n` chars in front of a script. -/
def consRetain (n : Nat) : List (Edit α) → List (Edit α)
  | .retain m :: es => .retain (n + m) :: es
  | es => if n = 0 then es else .retain n :: es

/-- Delete `n` chars in front of a script, behind what it inserts
there. -/
def consDelete (n : Nat) : List (Edit α) → List (Edit α)
  | .delete m :: es => .delete (n + m) :: es
  | .insert s :: .delete m :: es => .insert s :: .delete (n + m) :: es
  | .insert s :: es =>
      if n = 0 then .insert s :: es else .insert s :: .delete n :: es
  | es => if n = 0 then es else .delete n :: es

/-- Insert `s` in front of a script. -/
def consInsert (s : List α) : List (Edit α) → List (Edit α)
  | .insert t :: es => .insert (s ++ t) :: es
  | es => if s.isEmpty then es else .insert s :: es

def normalForm : List (Edit α) → List (Edit α)
  | [] => []
  | .retain n :: es => consRetain n (normalForm es)
  | .delete n :: es => consDelete n (normalForm es)
  | .insert s :: es => consInsert s (normalForm es)

variable {es fs : List (Edit α)}

attribute [grind =] normalForm

theorem consRetain_proper {n : Nat} (h : ∀ e ∈ es, e.Proper) :
    ∀ e ∈ consRetain n es, e.Proper := by
  unfold consRetain
  split
  · next m rest =>
      obtain ⟨hm, hrest⟩ := List.forall_mem_cons.mp h
      rw [Edit.proper_retain] at hm
      refine List.forall_mem_cons.mpr ⟨?_, hrest⟩
      rw [Edit.proper_retain]
      omega
  · split
    · exact h
    · refine List.forall_mem_cons.mpr ⟨?_, h⟩
      rw [Edit.proper_retain]
      omega

theorem consDelete_proper {n : Nat} (h : ∀ e ∈ es, e.Proper) :
    ∀ e ∈ consDelete n es, e.Proper := by
  unfold consDelete
  split
  · next m rest =>
      obtain ⟨hm, hrest⟩ := List.forall_mem_cons.mp h
      rw [Edit.proper_delete] at hm
      refine List.forall_mem_cons.mpr ⟨?_, hrest⟩
      rw [Edit.proper_delete]
      omega
  · next s m rest =>
      obtain ⟨hs, hrest⟩ := List.forall_mem_cons.mp h
      obtain ⟨hm, hrest⟩ := List.forall_mem_cons.mp hrest
      rw [Edit.proper_delete] at hm
      refine List.forall_mem_cons.mpr ⟨hs,
        List.forall_mem_cons.mpr ⟨?_, hrest⟩⟩
      rw [Edit.proper_delete]
      omega
  · next s rest _ =>
      obtain ⟨hs, hrest⟩ := List.forall_mem_cons.mp h
      split
      · exact h
      · refine List.forall_mem_cons.mpr ⟨hs,
          List.forall_mem_cons.mpr ⟨?_, hrest⟩⟩
        rw [Edit.proper_delete]
        omega
  · split
    · exact h
    · refine List.forall_mem_cons.mpr ⟨?_, h⟩
      rw [Edit.proper_delete]
      omega

theorem consInsert_proper {s : List α} (h : ∀ e ∈ es, e.Proper) :
    ∀ e ∈ consInsert s es, e.Proper := by
  unfold consInsert
  split
  · next t rest =>
      obtain ⟨ht, hrest⟩ := List.forall_mem_cons.mp h
      rw [Edit.proper_insert] at ht
      refine List.forall_mem_cons.mpr ⟨?_, hrest⟩
      rw [Edit.proper_insert]
      simp [ht]
  · split
    · exact h
    · next hs =>
        refine List.forall_mem_cons.mpr ⟨?_, h⟩
        rw [Edit.proper_insert]
        simpa [List.isEmpty_iff] using hs

/-- No step of a normal form is void. -/
theorem normalForm_proper (es : List (Edit α)) :
    ∀ e ∈ normalForm es, e.Proper := by
  induction es with
  | nil =>
      intro e he
      cases he
  | cons e es ih =>
      cases e with
      | retain n => exact consRetain_proper ih
      | delete n => exact consDelete_proper ih
      | insert s => exact consInsert_proper ih

-- == its three laws

@[simp] theorem consRetain_zero (es : List (Edit α)) :
    consRetain 0 es = es := by
  unfold consRetain
  split
  · rw [Nat.zero_add]
  · rfl

@[simp] theorem consDelete_zero (es : List (Edit α)) :
    consDelete 0 es = es := by
  unfold consDelete
  split
  · rw [Nat.zero_add]
  · rw [Nat.zero_add]
  · rfl
  · rfl

@[simp] theorem consInsert_nil (es : List (Edit α)) :
    consInsert [] es = es := by
  unfold consInsert
  split
  · rw [List.nil_append]
  · rfl

theorem consRetain_add (m n : Nat) (es : List (Edit α)) :
    consRetain (m + n) es = consRetain m (consRetain n es) := by
  rcases Nat.eq_zero_or_pos n with rfl | hn
  · rw [consRetain_zero, Nat.add_zero]
  have hne : n ≠ 0 := by omega
  cases es with
  | nil => simp [consRetain, hne]
  | cons e es => cases e <;> simp [consRetain, hne, Nat.add_assoc]

theorem consDelete_add (m n : Nat) (es : List (Edit α)) :
    consDelete (m + n) es = consDelete m (consDelete n es) := by
  rcases Nat.eq_zero_or_pos n with rfl | hn
  · rw [consDelete_zero, Nat.add_zero]
  have hne : n ≠ 0 := by omega
  cases es with
  | nil => simp [consDelete, hne]
  | cons e es =>
      cases e with
      | retain k => simp [consDelete, hne]
      | delete k => simp [consDelete, Nat.add_assoc]
      | insert s =>
          cases es with
          | nil => simp [consDelete, hne]
          | cons d es =>
              cases d <;> simp [consDelete, hne, Nat.add_assoc]

theorem consInsert_append (r s : List α) (es : List (Edit α)) :
    consInsert (r ++ s) es = consInsert r (consInsert s es) := by
  rcases s with _ | ⟨c, s⟩
  · rw [consInsert_nil, List.append_nil]
  cases es with
  | nil => simp [consInsert]
  | cons e es => cases e <;> simp [consInsert]

/-- An insert passes a delete. -/
theorem consDelete_consInsert (n : Nat) (s : List α)
    (es : List (Edit α)) :
    consDelete n (consInsert s es) = consInsert s (consDelete n es) := by
  rcases Nat.eq_zero_or_pos n with rfl | hn
  · rw [consDelete_zero, consDelete_zero]
  rcases s with _ | ⟨c, s⟩
  · rw [consInsert_nil, consInsert_nil]
  have hne : n ≠ 0 := by omega
  cases es with
  | nil => simp [consInsert, consDelete, hne]
  | cons e es =>
      cases e with
      | retain k => simp [consInsert, consDelete, hne]
      | delete k => simp [consInsert, consDelete]
      | insert t =>
          cases es with
          | nil => simp [consInsert, consDelete, hne]
          | cons d es =>
              cases d <;> simp [consInsert, consDelete, hne]

/-- Scripts that are alike have the same normal form. -/
theorem Alike.normalForm_eq (h : Alike es fs) :
    normalForm es = normalForm fs := by
  induction h with
  | refl es => rfl
  | symm _ ih => exact ih.symm
  | trans _ _ ih₁ ih₂ => exact ih₁.trans ih₂
  | cons e _ ih => cases e <;> simp only [normalForm, ih]
  | retain_zero es => exact consRetain_zero _
  | delete_zero es => exact consDelete_zero _
  | insert_nil es => exact consInsert_nil _
  | retain_add m n es => exact consRetain_add m n _
  | delete_add m n es => exact consDelete_add m n _
  | insert_append r s es => exact consInsert_append r s _
  | swap n s es => exact consDelete_consInsert n s _

-- == canonical

/-- A step that may stand in front of another: nothing that merges with
it, and no delete in front of an insert. -/
def Parts : Edit α → Edit α → Prop
  | .retain _, .retain _ => False
  | .delete _, .delete _ => False
  | .insert _, .insert _ => False
  | .delete _, .insert _ => False
  | _, _ => True

/-- No step is void, and none merges with the next. -/
structure Canonical (es : List (Edit α)) : Prop where
  proper : ∀ e ∈ es, e.Proper
  parts : es.IsChain Parts

theorem Canonical.tail {e : Edit α} (h : Canonical (e :: es)) :
    Canonical es :=
  ⟨fun d hd => h.proper d (List.mem_cons_of_mem _ hd), h.parts.tail⟩

/-- A canonical script is its own normal form. -/
theorem Canonical.normalForm_eq (h : Canonical es) : normalForm es = es := by
  induction es with
  | nil => rfl
  | cons e es ih =>
      have hproper := h.proper e List.mem_cons_self
      have hparts : ∀ d ∈ es.head?, Parts e d :=
        (List.isChain_cons.mp h.parts).1
      cases e with
      | retain n =>
          rw [normalForm, ih h.tail]
          rw [Edit.proper_retain] at hproper
          unfold consRetain
          split
          · exact (hparts _ rfl).elim
          · rw [if_neg (by omega)]
      | delete n =>
          rw [normalForm, ih h.tail]
          rw [Edit.proper_delete] at hproper
          unfold consDelete
          split
          · exact (hparts _ rfl).elim
          · exact (hparts _ rfl).elim
          · exact (hparts _ rfl).elim
          · rw [if_neg (by omega)]
      | insert s =>
          rw [normalForm, ih h.tail]
          rw [Edit.proper_insert] at hproper
          unfold consInsert
          split
          · exact (hparts _ rfl).elim
          · rw [if_neg (by simpa [List.isEmpty_iff] using hproper)]

/-- A step may be put behind a canonical script that it does not merge
with. -/
theorem Canonical.concat {e : Edit α} (h : Canonical es) (he : e.Proper)
    (hlast : ∀ d ∈ es.getLast?, Parts d e) : Canonical (es ++ [e]) := by
  constructor
  · intro d hd
    rcases List.mem_append.mp hd with hd | hd
    · exact h.proper d hd
    · rw [List.mem_singleton.mp hd]
      exact he
  · rw [List.isChain_append]
    refine ⟨h.parts, .singleton e, fun d hd x hx => ?_⟩
    rw [List.head?_cons] at hx
    injection hx with hx
    rw [← hx]
    exact hlast d hd

/-- What stands in front of the last step of a canonical script. -/
theorem Canonical.init {e : Edit α} (h : Canonical (es ++ [e])) :
    Canonical es ∧ ∀ d ∈ es.getLast?, Parts d e := by
  obtain ⟨hes, -, hlast⟩ := List.isChain_append.mp h.parts
  exact ⟨⟨fun d hd => h.proper d (List.mem_append_left _ hd), hes⟩,
    fun d hd => hlast d hd e rfl⟩

end Script
