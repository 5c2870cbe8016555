/-
Sharing an amount out in proportion to weights, each share rounded down.

What the shares come to falls short of the amount by the residues of the
rounding (`floored_add_residues`), so whoever takes the rest takes its own
share and those residues. That is no more than its weight when the residues
fit into what the weight has left (`rest_le_iff`).
-/
import Mathlib.Algebra.GroupWithZero.Nat
import Mathlib.Algebra.Order.Ring.Nat
import Mathlib.Tactic.Linarith

namespace Shares

/-- What the rounded shares of an amount come to. -/
def floored (amount total : Nat) (weights : List Nat) : Nat :=
  (weights.map fun w => amount * w / total).sum

/-- What the rounding leaves, in parts of the total. -/
def residues (amount total : Nat) (weights : List Nat) : Nat :=
  (weights.map fun w => amount * w % total).sum

variable {amount total : Nat}

theorem floored_cons (w : Nat) (weights : List Nat) :
    floored amount total (w :: weights) =
      amount * w / total + floored amount total weights := rfl

theorem residues_cons (w : Nat) (weights : List Nat) :
    residues amount total (w :: weights) =
      amount * w % total + residues amount total weights := rfl

/-- A rounded share is no more than its weight. -/
theorem share_le (h : amount ≤ total) (w : Nat) :
    amount * w / total ≤ w := by
  rcases Nat.eq_zero_or_pos total with rfl | hpos
  · rw [Nat.div_zero]
    exact Nat.zero_le w
  · calc amount * w / total ≤ total * w / total :=
          Nat.div_le_div_right (Nat.mul_le_mul_right w h)
      _ = w := Nat.mul_div_cancel_left w hpos

theorem floored_add_residues (weights : List Nat) :
    total * floored amount total weights + residues amount total weights =
      amount * weights.sum := by
  induction weights with
  | nil => rfl
  | cons w weights ih =>
      have h := Nat.div_add_mod (amount * w) total
      rw [floored_cons, residues_cons, List.sum_cons, Nat.mul_add,
        Nat.mul_add]
      omega

theorem floored_le (h : weights.sum ≤ total) (hpos : 0 < total) :
    floored amount total weights ≤ amount := by
  have heq := @floored_add_residues amount total weights
  have hle : total * floored amount total weights ≤ total * amount := by
    calc total * floored amount total weights ≤ amount * weights.sum := by
          omega
      _ ≤ amount * total := Nat.mul_le_mul_left amount h
      _ = total * amount := Nat.mul_comm amount total
  exact Nat.le_of_mul_le_mul_left hle hpos

/-- The rest of an amount, for the last of the weights: it is no more than
that weight when the residues of the others fit into what it has left. -/
theorem rest_le_iff {weights : List Nat} {last : Nat}
    (hsum : weights.sum + last = total) (hpos : 0 < total)
    (h : amount ≤ total) :
    amount - floored amount total weights ≤ last ↔
      residues amount total weights ≤ (total - amount) * last := by
  have heq := @floored_add_residues amount total weights
  have hle := @floored_le amount total weights (Nat.le.intro hsum) hpos
  have hmul : amount * weights.sum + amount * last = amount * total := by
    rw [← Nat.mul_add, hsum]
  obtain ⟨left, rfl⟩ := Nat.exists_eq_add_of_le h
  rw [Nat.add_sub_cancel_left, Nat.sub_le_iff_le_add,
    ← Nat.mul_le_mul_left_iff hpos]
  constructor
  · intro hrest
    linarith
  · intro hres
    linarith

end Shares
