/-
Writing the elements of a list to other places.

`move` takes them to places further back in their own list, last one first, so
that none is overwritten before it is taken (`move_spec`). `place` writes
another list over it (`place_spec`). Both need the places to be different.
-/
import Mathlib.Data.List.Basic

namespace Scatter

variable {α : Type*} (dest : Nat → Nat)

/-- Take the element at `i` to its place and leave a blank. -/
def moveStep (blank : α) (xs : List α) (i : Nat) : List α :=
  if i = dest i then xs
  else match xs[i]? with
    | some x => (xs.set (dest i) x).set i blank
    | none => xs

/-- Take the first `n` elements to their places. -/
def move (blank : α) : Nat → List α → List α
  | 0, xs => xs
  | n + 1, xs => move blank n (moveStep dest blank xs n)

/-- Write the elements from `i` on to their places. -/
def place : Nat → List α → List α → List α
  | _, [], xs => xs
  | i, y :: ys, xs => place (i + 1) ys (xs.set (dest i) y)

/-- The first `n` places lie in order, each where its element is or further
back. -/
structure Places (n len : Nat) : Prop where
  le : ∀ i < n, i ≤ dest i
  lt : ∀ i < n, dest i < len
  inj : ∀ i < n, ∀ j < n, dest i = dest j → i = j

variable {dest} {blank : α} {xs ys zs : List α} {n i : Nat}

attribute [grind =] place

theorem moveStep_self (h : i = dest i) : moveStep dest blank xs i = xs :=
  if_pos h

theorem moveStep_of_ne (h : i ≠ dest i) (hi : i < xs.length) :
    moveStep dest blank xs i = (xs.set (dest i) xs[i]).set i blank := by
  unfold moveStep
  rw [if_neg h, List.getElem?_eq_getElem hi]

theorem length_moveStep : (moveStep dest blank xs i).length = xs.length := by
  unfold moveStep
  split
  · rfl
  · split
    · rw [List.length_set, List.length_set]
    · rfl

theorem length_move : (move dest blank n xs).length = xs.length := by
  induction n generalizing xs with
  | zero => rfl
  | succ n ih => exact ih.trans length_moveStep

/-- What the elements from `i` on have been taken to. -/
structure Moved (dest : Nat → Nat) (blank : α) (xs : List α) (n i : Nat)
    (ys : List α) : Prop where
  length : ys.length = xs.length
  kept : ∀ p < i, ys[p]? = xs[p]?
  moved : ∀ j, i ≤ j → j < n → ys[dest j]? = xs[j]?
  blank : ∀ p, i ≤ p → p < xs.length →
    (∀ j, i ≤ j → j < n → dest j ≠ p) → ys[p]? = some blank

theorem Moved.step (h : Places dest n xs.length) (hi : i < n)
    (hm : Moved dest blank xs n (i + 1) ys) :
    Moved dest blank xs n i (moveStep dest blank ys i) := by
  have hlt : i < ys.length := by
    have := h.le i hi
    have := h.lt i hi
    have := hm.length
    omega
  have hlt' : dest i < ys.length := hm.length ▸ h.lt i hi
  have hself : ys[i]? = xs[i]? := hm.kept i (Nat.lt_succ_self i)
  by_cases heq : i = dest i
  · rw [moveStep_self heq]
    refine ⟨hm.length, fun p hp => hm.kept p (by omega),
      fun j hij hj => ?_, fun p hp hlen hnone => ?_⟩
    · rcases Nat.eq_or_lt_of_le hij with rfl | hij
      · rw [← heq, hself]
      · exact hm.moved j hij hj
    · have hne : p ≠ i := fun h => hnone i (Nat.le_refl i) hi (by omega)
      exact hm.blank p (by omega) hlen
        fun j hij hj => hnone j (by omega) hj
  · have hback : i < dest i := Nat.lt_of_le_of_ne (h.le i hi) heq
    rw [moveStep_of_ne heq hlt]
    have hget : ∀ p, p ≠ i → p ≠ dest i →
        ((ys.set (dest i) ys[i]).set i blank)[p]? = ys[p]? :=
      fun p hne hne' => by
        rw [List.getElem?_set_ne (Ne.symm hne),
          List.getElem?_set_ne (Ne.symm hne')]
    have hleft : ((ys.set (dest i) ys[i]).set i blank)[i]? = some blank :=
      List.getElem?_set_self (by rw [List.length_set]; exact hlt)
    refine ⟨?_, fun p hp => ?_, fun j hij hj => ?_, fun p hp hlen hnone => ?_⟩
    · rw [List.length_set, List.length_set, hm.length]
    · rw [hget p (by omega) (by omega)]
      exact hm.kept p (by omega)
    · rcases Nat.eq_or_lt_of_le hij with rfl | hij
      · rw [List.getElem?_set_ne heq, List.getElem?_set_self hlt', ← hself,
          List.getElem?_eq_getElem hlt]
      · have hle := h.le j hj
        rw [hget (dest j) (by omega) fun h' => by
          have := h.inj j hj i hi h'
          omega]
        exact hm.moved j hij hj
    · by_cases hp' : p = i
      · rw [hp', hleft]
      · rw [hget p hp' fun h' => hnone i (Nat.le_refl i) hi h'.symm]
        exact hm.blank p (by omega) hlen
          fun j hij hj => hnone j (by omega) hj

theorem Moved.run (h : Places dest n xs.length) (hi : i ≤ n)
    (hm : Moved dest blank xs n i ys) :
    Moved dest blank xs n 0 (move dest blank i ys) := by
  induction i generalizing ys with
  | zero => exact hm
  | succ i ih => exact ih (by omega) (hm.step h hi)

/-- The elements are at their places, and there is nothing else. -/
theorem move_spec (h : Places dest n xs.length)
    (hblank : ∀ p, n ≤ p → p < xs.length → xs[p]? = some blank) :
    (move dest blank n xs).length = xs.length ∧
      (∀ j < n, (move dest blank n xs)[dest j]? = xs[j]?) ∧
      ∀ p < xs.length, (∀ j < n, dest j ≠ p) →
        (move dest blank n xs)[p]? = some blank := by
  have hstart : Moved dest blank xs n n xs :=
    ⟨rfl, fun _ _ => rfl, fun j hj hj' => absurd hj' (by omega),
      fun p hp hlen _ => hblank p hp hlen⟩
  have hend := hstart.run h (Nat.le_refl n)
  exact ⟨hend.length, fun j => hend.moved j (Nat.zero_le j),
    fun p hp hnone => hend.blank p (Nat.zero_le p) hp fun j _ => hnone j⟩

theorem length_place : (place dest i ys xs).length = xs.length := by
  induction ys generalizing i xs with
  | nil => rfl
  | cons y ys ih => rw [place, ih, List.length_set]

theorem place_other {p : Nat} (h : ∀ j < ys.length, dest (i + j) ≠ p) :
    (place dest i ys xs)[p]? = xs[p]? := by
  induction ys generalizing i xs with
  | nil => rfl
  | cons y ys ih =>
      rw [place, ih fun j hj => by
        have := h (j + 1) (Nat.succ_lt_succ hj)
        rwa [Nat.add_comm j, ← Nat.add_assoc] at this]
      exact List.getElem?_set_ne (h 0 (Nat.succ_pos _))

theorem place_self {j : Nat} (hj : j < ys.length)
    (hlt : dest (i + j) < xs.length)
    (hinj : ∀ k < ys.length, dest (i + k) = dest (i + j) → k = j) :
    (place dest i ys xs)[dest (i + j)]? = ys[j]? := by
  induction ys generalizing i j xs with
  | nil => exact absurd hj (Nat.not_lt_zero j)
  | cons y ys ih =>
      cases j with
      | zero =>
          rw [place, place_other fun k hk heq => by
            have := hinj (k + 1) (Nat.succ_lt_succ hk)
              (by rw [Nat.add_comm k, ← Nat.add_assoc]; exact heq)
            omega]
          exact List.getElem?_set_self hlt
      | succ j =>
          have hnext : ∀ k, i + (k + 1) = i + 1 + k := fun k => by omega
          rw [hnext] at hlt hinj ⊢
          rw [place, List.getElem?_cons_succ]
          refine ih (Nat.lt_of_succ_lt_succ hj) ?_ fun k hk heq => ?_
          · rw [List.length_set]
            exact hlt
          · have := hinj (k + 1) (Nat.succ_lt_succ hk) (hnext k ▸ heq)
            omega

/-- The other list's elements are at their places, and the rest is as it was.
-/
theorem place_spec (hlt : ∀ j < ys.length, dest j < xs.length)
    (hinj : ∀ j < ys.length, ∀ k < ys.length, dest j = dest k → j = k) :
    (place dest 0 ys xs).length = xs.length ∧
      (∀ j < ys.length, (place dest 0 ys xs)[dest j]? = ys[j]?) ∧
      ∀ p, (∀ j < ys.length, dest j ≠ p) →
        (place dest 0 ys xs)[p]? = xs[p]? := by
  refine ⟨length_place, fun j hj => ?_, fun p hnone => ?_⟩
  · have hself : (place dest 0 ys xs)[dest (0 + j)]? = ys[j]? := by
      refine place_self hj (by rw [Nat.zero_add]; exact hlt j hj) ?_
      intro k hk heq
      rw [Nat.zero_add, Nat.zero_add] at heq
      exact hinj k hk j hj heq
    rwa [Nat.zero_add] at hself
  · refine place_other fun j hj => ?_
    rw [Nat.zero_add]
    exact hnone j hj

end Scatter
