/-
Relations without cycles, and walks along them.

`Acyclic R` says that no walk along `R` comes back. It is kept when the
points are renamed (`acyclic_iff_of_naming`), and follows from a measure
that falls along `R` (`acyclic_of_lt`). A walk among `n` points has fewer
than `n` points behind it (`Trail.length_lt`), so that a recursion along
`R` that is given `n` steps never runs out of them.
-/
import Mathlib.Data.List.Nodup
import Mathlib.Data.List.Perm.Subperm
import Mathlib.Data.List.Range
import Mathlib.Logic.Relation

namespace Walk

open Relation

variable {α β : Type*}

/-- No walk comes back to where it was. -/
def Acyclic (R : α → α → Prop) : Prop := ∀ x, ¬ TransGen R x x

/-- Along a relation that makes a number smaller there is no way back. -/
theorem acyclic_of_lt {R : α → α → Prop} (f : α → Nat)
    (h : ∀ x y, R x y → f y < f x) : Acyclic R := by
  have hlt : ∀ x y, TransGen R x y → f y < f x := by
    intro x y hxy
    induction hxy with
    | single hxy => exact h _ _ hxy
    | tail _ hyz ih => exact (h _ _ hyz).trans ih
  exact fun x hx => Nat.lt_irrefl _ (hlt x x hx)

/-- The points of one relation name those of the other, one to one, and
steps correspond. -/
structure Naming (name : α → β → Prop) (R : α → α → Prop)
    (S : β → β → Prop) : Prop where
  unique : ∀ i x y, name i x → name i y → x = y
  injective : ∀ i j x, name i x → name j x → i = j
  step : ∀ i j, R i j ↔ ∃ x y, name i x ∧ name j y ∧ S x y
  named : ∀ x y, S x y → ∃ i j, name i x ∧ name j y

variable {name : α → β → Prop} {R : α → α → Prop} {S : β → β → Prop}

theorem Naming.walk (h : Naming name R S) {i j : α} :
    TransGen R i j ↔ ∃ x y, name i x ∧ name j y ∧ TransGen S x y := by
  constructor
  · intro hij
    induction hij with
    | single hij =>
        obtain ⟨x, y, hx, hy, hxy⟩ := (h.step _ _).mp hij
        exact ⟨x, y, hx, hy, .single hxy⟩
    | tail _ hjk ih =>
        obtain ⟨x, y, hx, hy, hxy⟩ := ih
        obtain ⟨y', z, hy', hz, hyz⟩ := (h.step _ _).mp hjk
        rw [h.unique _ _ _ hy' hy] at hyz
        exact ⟨x, z, hx, hz, .tail hxy hyz⟩
  · rintro ⟨x, y, hx, hy, hxy⟩
    induction hxy generalizing j with
    | single hxy => exact .single ((h.step _ _).mpr ⟨_, _, hx, hy, hxy⟩)
    | tail _ hyz ih =>
        obtain ⟨k, k', hk, hk'⟩ := h.named _ _ hyz
        rw [h.injective _ _ _ hy hk']
        exact .tail (ih hk) ((h.step _ _).mpr ⟨_, _, hk, hk', hyz⟩)

/-- Naming the points makes no cycles and breaks none. -/
theorem acyclic_iff_of_naming (h : Naming name R S) :
    Acyclic R ↔ Acyclic S := by
  constructor
  · intro hR x hx
    obtain ⟨y, hxy, -⟩ := TransGen.head'_iff.mp hx
    obtain ⟨i, -, hi, -⟩ := h.named x y hxy
    exact hR i (h.walk.mpr ⟨x, x, hi, hi, hx⟩)
  · intro hS i hi
    obtain ⟨x, y, hx, hy, hxy⟩ := h.walk.mp hi
    rw [h.unique _ _ _ hy hx] at hxy
    exact hS x hxy

-- == trails

/-- What a walk that is at `x` has behind it: points below `n`, none of
them twice, from each of which it came here. -/
structure Trail (R : Nat → Nat → Prop) (n : Nat) (behind : List Nat)
    (x : Nat) : Prop where
  nodup : behind.Nodup
  lt : ∀ y ∈ behind, y < n
  reaches : ∀ y ∈ behind, TransGen R y x

variable {R : Nat → Nat → Prop} {n x y : Nat} {behind : List Nat}

theorem Trail.start (R : Nat → Nat → Prop) (n x : Nat) :
    Trail R n [] x :=
  ⟨List.nodup_nil, fun _ hy => absurd hy List.not_mem_nil,
    fun _ hy => absurd hy List.not_mem_nil⟩

theorem Trail.not_mem (hR : Acyclic R) (h : Trail R n behind x) :
    x ∉ behind := fun hx => hR x (h.reaches x hx)

theorem Trail.step (hR : Acyclic R) (h : Trail R n behind x)
    (hx : x < n) (hxy : R x y) : Trail R n (x :: behind) y where
  nodup := List.nodup_cons.mpr ⟨h.not_mem hR, h.nodup⟩
  lt := List.forall_mem_cons.mpr ⟨hx, h.lt⟩
  reaches := List.forall_mem_cons.mpr
    ⟨.single hxy, fun z hz => .tail (h.reaches z hz) hxy⟩

/-- There is always a point left for the one the walk is at. -/
theorem Trail.length_lt (hR : Acyclic R) (h : Trail R n behind x)
    (hx : x < n) : behind.length < n := by
  have hnodup : (x :: behind).Nodup :=
    List.nodup_cons.mpr ⟨h.not_mem hR, h.nodup⟩
  have hsub : x :: behind ⊆ List.range n := by
    intro z hz
    rw [List.mem_range]
    rcases List.mem_cons.mp hz with rfl | hz
    · exact hx
    · exact h.lt z hz
  have hle := (List.subperm_of_subset hnodup hsub).length_le
  rw [List.length_cons, List.length_range] at hle
  exact hle

end Walk
