/-
Nesting, seen as height.

Every element of a list goes up or down by some step, so each place has a
`height`. A `Pair` is an element that goes up and the first one behind it that
comes down to the same height again. Pairs around one place lie in each other
(`Pair.eq_of_le`), the innermost one where the heights on the way from the
place are all at least its own (`Pair.of_valley`, `Pair.in_valley`).
-/
import Mathlib.Algebra.BigOperators.Group.List.Basic
import Mathlib.Algebra.Order.Group.Int
import Mathlib.Algebra.Ring.Int.Defs

namespace Height

variable {α : Type*} (step : α → Int) (xs : List α)

/-- The height in front of an element. -/
def height (i : Nat) : Int := ((xs.take i).map step).sum

/-- From an element up to the one that comes down again. -/
structure Pair (a b : Nat) : Prop where
  lt : a < b
  same : height step xs (b + 1) = height step xs a
  deeper : ∀ i, a < i → i ≤ b → height step xs a < height step xs i

variable {step xs} {a b a' b' s i : Nat}

theorem height_succ {x : α} (hx : xs[i]? = some x) :
    height step xs (i + 1) = height step xs i + step x := by
  unfold height
  rw [List.take_add_one, hx, List.map_append, List.sum_append]
  simp

theorem height_of_le (h : xs.length ≤ i) :
    height step xs i = height step xs xs.length := by
  unfold height
  rw [List.take_of_length_le h, List.take_length]

/-- A pair starts and ends in the list. -/
theorem Pair.lt_length (h : Pair step xs a b) : b < xs.length := by
  by_contra hge
  have hb : height step xs b = height step xs xs.length :=
    height_of_le (Nat.not_lt.mp hge)
  have hnext : height step xs (b + 1) = height step xs xs.length :=
    height_of_le (by omega)
  have hdeeper := h.deeper b h.lt (Nat.le_refl b)
  have hsame := h.same
  omega

/-- Pairs around one place lie in each other. -/
theorem Pair.eq_of_le (h : Pair step xs a b) (h' : Pair step xs a' b')
    (ha : a' ≤ a) (hb : b ≤ b') : a' = a ∧ b' = b ∨ a' < a ∧ b < b' := by
  have hlt := h.lt
  rcases Nat.lt_or_eq_of_le ha with ha | rfl
  · rcases Nat.lt_or_eq_of_le hb with hb | rfl
    · exact .inr ⟨ha, hb⟩
    · have hdeeper := h'.deeper a ha (by omega)
      have hsame := h.same
      have hsame' := h'.same
      omega
  · rcases Nat.lt_or_eq_of_le hb with hb | rfl
    · have hdeeper := h'.deeper (b + 1) (by omega) hb
      have hsame := h.same
      omega
    · exact .inl ⟨rfl, rfl⟩

/-- The way from a place down to both sides is a pair. -/
theorem Pair.of_valley (has : a < s) (hsb : s ≤ b)
    (ha : height step xs a < height step xs s)
    (hb : height step xs (b + 1) = height step xs a)
    (hleft : ∀ i, a < i → i ≤ s → height step xs s ≤ height step xs i)
    (hright : ∀ i, s ≤ i → i ≤ b → height step xs s ≤ height step xs i) :
    Pair step xs a b where
  lt := by omega
  same := hb
  deeper := by
    intro i hai hib
    rcases Nat.le_total i s with his | hsi
    · have hi := hleft i hai his
      omega
    · have hi := hright i hsi hib
      omega

/-- No pair around a place starts where the heights have not come down. -/
theorem Pair.left_le (h : Pair step xs a' b') (hs : a' < s) (hsb : s ≤ b')
    (hleft : ∀ i, a < i → i ≤ s → height step xs s ≤ height step xs i) :
    a' ≤ a := by
  by_contra hlt
  have hi := hleft a' (by omega) (by omega)
  have hdeeper := h.deeper s hs hsb
  omega

/-- And none ends there. -/
theorem Pair.le_right (h : Pair step xs a' b') (hs : a' < s) (hsb : s ≤ b')
    (hright : ∀ i, s ≤ i → i ≤ b → height step xs s ≤ height step xs i) :
    b ≤ b' := by
  by_contra hlt
  have hi := hright (b' + 1) (by omega) (by omega)
  have hdeeper := h.deeper s hs hsb
  have hsame := h.same
  omega

end Height
