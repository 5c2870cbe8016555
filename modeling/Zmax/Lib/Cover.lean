/-
Sets of positions, given as lists of half-open pieces.

A piece is anything with a start and a stop; what it covers is the
interval between them, and a list covers the union of what its pieces
cover. In a list that is apart, each piece stops before the next one
starts, so nothing behind the first piece reaches back before its stop:
the fact a sweep over two such lists rests on.
-/
import Mathlib.Order.Interval.Set.LinearOrder

namespace Cover

variable {α β : Type*} [LinearOrder α] (start stop : β → α)

/-- The positions the pieces of a list cover. -/
def covered (pieces : List β) : Set α :=
  {x | ∃ b ∈ pieces, x ∈ Set.Ico (start b) (stop b)}

/-- Each piece stops before the next ones start. -/
def Apart (pieces : List β) : Prop :=
  pieces.Pairwise fun a b => stop a ≤ start b

/-- No piece stops before it starts. -/
def Proper (pieces : List β) : Prop :=
  ∀ b ∈ pieces, start b ≤ stop b

variable {start stop} {a b : β} {l l₁ l₂ : List β} {x : α}

@[simp] theorem covered_nil : covered start stop [] = ∅ := by
  simp [covered]

@[simp] theorem covered_cons :
    covered start stop (b :: l)
      = Set.Ico (start b) (stop b) ∪ covered start stop l := by
  ext x
  simp [covered]

@[simp] theorem covered_append :
    covered start stop (l₁ ++ l₂)
      = covered start stop l₁ ∪ covered start stop l₂ := by
  ext x
  simp [covered, or_and_right, exists_or]

/-- What is covered does not depend on the order of the pieces. -/
theorem covered_perm (h : l₁.Perm l₂) :
    covered start stop l₁ = covered start stop l₂ := by
  ext x
  simp only [covered, Set.mem_ofPred_eq, h.mem_iff]

/-- Nothing behind the first piece reaches back before its stop. -/
theorem Apart.le_of_mem (h : Apart start stop (b :: l))
    (hx : x ∈ covered start stop l) : stop b ≤ x := by
  obtain ⟨c, hc, hx⟩ := hx
  exact ((List.pairwise_cons.mp h).1 c hc).trans hx.1

theorem Apart.tail (h : Apart start stop (b :: l)) : Apart start stop l :=
  (List.pairwise_cons.mp h).2

/-- A sweep may leave the first of two pieces behind for good when it
stops no later than the other one: whatever else it could meet lies
further on. -/
theorem inter_covered_eq_empty {d : α} (h : Apart start stop (b :: l))
    (hd : d ≤ stop b) (c : α) :
    Set.Ico c d ∩ covered start stop l = ∅ := by
  ext x
  simp only [Set.mem_inter_iff, Set.mem_Ico, Set.mem_empty_iff_false,
    iff_false, not_and]
  intro hx hmem
  exact absurd (h.le_of_mem hmem) (not_le.mpr (hx.2.trans_le hd))

end Cover
