/-
A map that hands out its keys. A key is never handed out twice: what the
map does not hold yet is found at every key from `next` on, which the map
carries as a field. Key `0` is handed out to nothing.
-/
import Mathlib.Data.Set.Finite.Basic
import Mathlib.Logic.Function.Basic

structure SlotMap (α : Type*) where
  get : Nat → Option α
  /-- The key of the next value. -/
  next : Nat
  fresh : ∀ k, next ≤ k → get k = none

namespace SlotMap

variable {α : Type*} {m : SlotMap α} {k j : Nat} {a : α}

theorem fresh_update (hk : k < m.next) (o : Option α) (j : Nat)
    (hj : m.next ≤ j) : Function.update m.get k o j = none := by
  rw [Function.update_of_ne (by omega)]
  exact m.fresh j hj

theorem fresh_insert (m : SlotMap α) (a : α) (j : Nat)
    (hj : m.next + 1 ≤ j) :
    Function.update m.get m.next (some a) j = none := by
  rw [Function.update_of_ne (by omega)]
  exact m.fresh j (by omega)

def empty : SlotMap α := ⟨fun _ => none, 1, fun _ _ => rfl⟩

/-- Put a value in, under a key of its own. -/
def insert (m : SlotMap α) (a : α) : Nat × SlotMap α :=
  (m.next, ⟨Function.update m.get m.next (some a), m.next + 1,
    m.fresh_insert a⟩)

/-- Replace the value of a key that was handed out. -/
def set (m : SlotMap α) (k : Nat) (a : α) : SlotMap α :=
  if hk : k < m.next then
    ⟨Function.update m.get k (some a), m.next, fresh_update hk (some a)⟩
  else m

def remove (m : SlotMap α) (k : Nat) : SlotMap α :=
  if hk : k < m.next then
    ⟨Function.update m.get k none, m.next, fresh_update hk none⟩
  else m

theorem lt_next (h : m.get k = some a) : k < m.next := by
  by_contra hk
  rw [m.fresh k (by omega)] at h
  cases h

@[simp] theorem get_next (m : SlotMap α) : m.get m.next = none :=
  m.fresh m.next (Nat.le_refl _)

@[simp] theorem insert_fst (m : SlotMap α) (a : α) :
    (m.insert a).1 = m.next := rfl

@[simp] theorem get_insert (m : SlotMap α) (a : α) (k : Nat) :
    (m.insert a).2.get k = if k = m.next then some a else m.get k := by
  simp [insert, Function.update_apply]

/-- Reading after a replacement, where there was something to replace. -/
theorem get_set (h : m.get k ≠ none) (a : α) (j : Nat) :
    (m.set k a).get j = if j = k then some a else m.get j := by
  obtain ⟨b, hb⟩ := Option.ne_none_iff_exists'.mp h
  simp [set, lt_next hb, Function.update_apply]

@[simp] theorem next_set (m : SlotMap α) (k : Nat) (a : α) :
    (m.set k a).next = m.next := by
  by_cases hk : k < m.next <;> simp [set, hk]

@[simp] theorem get_remove (m : SlotMap α) (k j : Nat) :
    (m.remove k).get j = if j = k then none else m.get j := by
  by_cases hk : k < m.next
  · simp [remove, hk, Function.update_apply]
  · by_cases hj : j = k
    · simp [remove, hk, hj, m.fresh k (by omega)]
    · simp [remove, hk, hj]

/-- A map holds finitely many values. -/
theorem finite (m : SlotMap α) : {k | m.get k ≠ none}.Finite := by
  refine (Set.finite_lt_nat m.next).subset fun k hk => ?_
  obtain ⟨a, ha⟩ := Option.ne_none_iff_exists'.mp hk
  exact lt_next ha

end SlotMap
