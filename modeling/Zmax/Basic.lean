/-
The ground the whole model stands on: how a step of the program can
fail, and what its texts are.

# Failures

A Rust panic ends the computation that raised it. Every modelled
function that can panic returns a `Result`, and `Panic` names the way it
went: a failed `assert!`, an `unreachable!` arm, an index or a slice out
of bounds, an `unwrap` of nothing, an arithmetic underflow. Debug
assertions and overflow checks count as panics, as they are in the
builds the tests run. `diverges` is not a panic: it marks a loop that
used up the bound the model gives it.

# Texts

A rope is its list of chars, and a tendril too: every position in the
modelled code is a char index, and nothing depends on how ropey chunks
a text.
-/
import Mathlib.Data.List.Forall2

namespace Zmax

/-- How a modelled computation stops without a value. -/
inductive Panic where
  | assertion
  | unreachable
  | outOfBounds
  | unwrapNone
  | underflow
  | diverges
  deriving DecidableEq, Repr

/-- The value of a computation that may panic. -/
abbrev Result (α : Type _) := Except Panic α

/-- A document's text. -/
abbrev Rope := List Char

/-- A piece of inserted text. -/
abbrev Tendril := List Char

-- == sequencing

variable {α β : Type _}

/-- A sequence succeeds when its first half does and its second half
does on that value: the lemma that takes a `do` block apart. -/
theorem bind_eq_ok {ε : Type _} {x : Except ε α} {f : α → Except ε β} {b : β} :
    (x >>= f) = .ok b ↔ ∃ a, x = .ok a ∧ f a = .ok b := by
  cases x with
  | ok a => simp [bind, Except.bind]
  | error e => simp [bind, Except.bind]

@[simp] theorem ok_bind (a : α) (f : α → Result β) :
    ((Except.ok a : Result α) >>= f) = f a := rfl

/-- A computation over a list succeeds when it does at every element. -/
theorem mapM_eq_ok {f : α → Result β} {xs : List α} {ys : List β} :
    xs.mapM f = .ok ys ↔ List.Forall₂ (fun x y => f x = .ok y) xs ys := by
  induction xs generalizing ys with
  | nil =>
      rw [List.mapM_nil, List.forall₂_nil_left_iff]
      exact ⟨fun h => by injection h with h; exact h.symm, fun h => h ▸ rfl⟩
  | cons x xs ih =>
      rw [List.mapM_cons, bind_eq_ok, List.forall₂_cons_left_iff]
      constructor
      · rintro ⟨y, hy, h⟩
        obtain ⟨zs, hzs, h⟩ := bind_eq_ok.mp h
        injection h with h
        exact ⟨y, zs, hy, ih.mp hzs, h.symm⟩
      · rintro ⟨y, zs, hy, hzs, rfl⟩
        exact ⟨y, hy, bind_eq_ok.mpr ⟨zs, ih.mpr hzs, rfl⟩⟩

theorem exists_of_forall₂ {R : α → β → Prop} {xs : List α}
    {ys : List β} (h : List.Forall₂ R xs ys) : ∀ y ∈ ys, ∃ x ∈ xs, R x y := by
  induction h with
  | nil => exact nofun
  | cons hxy _ ih =>
      intro y hy
      rcases List.mem_cons.mp hy with rfl | hy
      · exact ⟨_, List.mem_cons_self, hxy⟩
      · obtain ⟨x, hx, hxy⟩ := ih y hy
        exact ⟨x, List.mem_cons_of_mem _ hx, hxy⟩

/-- What a computation over a list gives comes from some element. -/
theorem exists_of_mapM {f : α → Result β} {xs : List α} {ys : List β}
    (h : xs.mapM f = .ok ys) : ∀ y ∈ ys, ∃ x ∈ xs, f x = .ok y :=
  exists_of_forall₂ (mapM_eq_ok.mp h)

theorem mapM_ok {f : α → Result β} {xs : List α}
    (h : ∀ x ∈ xs, ∃ y, f x = .ok y) : ∃ ys, xs.mapM f = .ok ys := by
  induction xs with
  | nil => exact ⟨[], rfl⟩
  | cons x xs ih =>
      obtain ⟨⟨y, hy⟩, hxs⟩ := List.forall_mem_cons.mp h
      obtain ⟨ys, hys⟩ := ih hxs
      refine ⟨y :: ys, ?_⟩
      rw [List.mapM_cons, hy, ok_bind, hys]
      rfl

/-- `assert!`: carry on if the condition holds. -/
def assert (b : Bool) : Result Unit :=
  if b then .ok () else .error .assertion

@[simp] theorem assert_true : assert true = .ok () := rfl

theorem assert_eq_ok {b : Bool} {u : Unit} :
    assert b = .ok u ↔ b = true := by
  cases b <;> simp [assert]

/-- `usize` subtraction, which panics below zero. -/
def checkedSub (m n : Nat) : Result Nat :=
  if n ≤ m then .ok (m - n) else .error .underflow

theorem checkedSub_of_le {m n : Nat} (h : n ≤ m) :
    checkedSub m n = .ok (m - n) := by
  unfold checkedSub
  rw [if_pos h]

/-- Indexing a vector. -/
def index {α : Type _} (xs : List α) (i : Nat) : Result α :=
  match xs[i]? with
  | some x => .ok x
  | none => .error .outOfBounds

theorem index_eq_ok {xs : List α} {i : Nat} {x : α} :
    index xs i = .ok x ↔ xs[i]? = some x := by
  unfold index
  cases xs[i]? <;> simp

/-- `&xs[start..stop]` -/
def slice {α : Type _} (xs : List α) (start stop : Nat) :
    Result (List α) :=
  if start ≤ stop ∧ stop ≤ xs.length then
    .ok ((xs.drop start).take (stop - start))
  else .error .outOfBounds

theorem slice_of_le {xs : List α} {start stop : Nat} (h : start ≤ stop)
    (hstop : stop ≤ xs.length) :
    slice xs start stop = .ok ((xs.drop start).take (stop - start)) := by
  unfold slice
  rw [if_pos ⟨h, hstop⟩]

end Zmax
