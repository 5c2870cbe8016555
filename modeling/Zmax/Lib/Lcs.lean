/-
Common subsequences of two lists, over arbitrary elements.

`size` is the recursion every table of longest common subsequences is
filled by. It is what the name says: some common subsequence is that long
(`exists_common`) and none is longer (`length_le_size`). A `Matching` is
the same thing as index pairs, so no matching is larger either.
-/
import Mathlib.Data.List.Basic

namespace Lcs

variable {α : Type*} [DecidableEq α] {a b c : List α}

/-- How long the common subsequences of two lists get. -/
def size : List α → List α → Nat
  | [], _ => 0
  | _ :: _, [] => 0
  | x :: a, y :: b =>
      if x = y then size a b + 1 else max (size a (y :: b)) (size (x :: a) b)
termination_by a b => a.length + b.length

attribute [grind =] size

@[simp] theorem size_nil (b : List α) : size [] b = 0 := by
  rw [size]

@[simp] theorem size_nil_right (a : List α) : size a [] = 0 := by
  cases a <;> rw [size]

theorem size_cons_self (x : α) (a b : List α) :
    size (x :: a) (x :: b) = size a b + 1 := by
  rw [size, if_pos rfl]

theorem size_cons_ne {x y : α} (h : x ≠ y) (a b : List α) :
    size (x :: a) (y :: b) = max (size a (y :: b)) (size (x :: a) b) := by
  rw [size, if_neg h]

-- == optimality

/-- No common subsequence is longer. -/
theorem length_le_size (ha : c.Sublist a) (hb : c.Sublist b) :
    c.length ≤ size a b := by
  fun_induction size a b generalizing c with
  | case1 b => exact ha.length_le
  | case2 x a => exact hb.length_le
  | case3 a x b ih =>
      have htail := ih ha.tail hb.tail
      rw [List.length_tail] at htail
      omega
  | case4 x a y b hne iha ihb =>
      rcases List.sublist_cons_iff.mp ha with ha' | ⟨c', rfl, -⟩
      · exact Nat.le_trans (iha ha' hb) (Nat.le_max_left _ _)
      · rcases List.sublist_cons_iff.mp hb with hb' | ⟨c'', heq, -⟩
        · exact Nat.le_trans (ihb ha hb') (Nat.le_max_right _ _)
        · exact absurd (List.cons.inj heq).1 hne

/-- Some common subsequence is that long. -/
theorem exists_common (a b : List α) :
    ∃ c : List α, c.Sublist a ∧ c.Sublist b ∧ c.length = size a b := by
  fun_induction size a b with
  | case1 b => exact ⟨[], List.nil_sublist _, List.nil_sublist _, rfl⟩
  | case2 x a => exact ⟨[], List.nil_sublist _, List.nil_sublist _, rfl⟩
  | case3 a x b ih =>
      obtain ⟨c, ha, hb, hlen⟩ := ih
      exact ⟨x :: c, ha.cons_cons x, hb.cons_cons x,
        congrArg (· + 1) hlen⟩
  | case4 x a y b hne iha ihb =>
      obtain ⟨c, ha, hb, hlen⟩ := iha
      obtain ⟨d, ha', hb', hlen'⟩ := ihb
      rcases Nat.le_total (size a (y :: b)) (size (x :: a) b) with hle | hle
      · exact ⟨d, ha', hb'.cons y, by rw [hlen', Nat.max_eq_right hle]⟩
      · exact ⟨c, ha.cons x, hb, by rw [hlen, Nat.max_eq_left hle]⟩

/-- Longer lists have longer common subsequences. -/
theorem size_mono {a' b' : List α} (ha : a.Sublist a') (hb : b.Sublist b') :
    size a b ≤ size a' b' := by
  obtain ⟨c, hca, hcb, hlen⟩ := exists_common a b
  rw [← hlen]
  exact length_le_size (hca.trans ha) (hcb.trans hb)

-- == matchings

/-- Index pairs of equal elements that go forward in both lists. -/
structure Matching (a b : List α) (ps : List (Nat × Nat)) : Prop where
  forward : ps.Pairwise fun p q => p.1 < q.1 ∧ p.2 < q.2
  equal : ∀ p ∈ ps, ∃ x, a[p.1]? = some x ∧ b[p.2]? = some x

omit [DecidableEq α] in
theorem cons_sublist_drop {x : α} {i k : Nat} (hik : i ≤ k)
    (hx : a[k]? = some x) :
    (x :: a.drop (k + 1)).Sublist (a.drop i) := by
  obtain ⟨hk, rfl⟩ := List.getElem?_eq_some_iff.mp hx
  rw [← List.drop_eq_getElem_cons hk]
  exact List.drop_sublist_drop_left a hik

/-- What a matching can pair up behind two positions. -/
theorem Matching.length_le_drop {ps : List (Nat × Nat)}
    (h : Matching a b ps) {i j : Nat}
    (hstart : ∀ p ∈ ps, i ≤ p.1 ∧ j ≤ p.2) :
    ps.length ≤ size (a.drop i) (b.drop j) := by
  induction ps generalizing i j with
  | nil => exact Nat.zero_le _
  | cons p ps ih =>
      obtain ⟨hp, hforward⟩ := List.pairwise_cons.mp h.forward
      obtain ⟨⟨x, hx, hy⟩, hequal⟩ := List.forall_mem_cons.mp h.equal
      obtain ⟨hi, hj⟩ := hstart p List.mem_cons_self
      calc ps.length + 1
          ≤ size (a.drop (p.1 + 1)) (b.drop (p.2 + 1)) + 1 :=
            Nat.succ_le_succ (ih ⟨hforward, hequal⟩ hp)
        _ = size (x :: a.drop (p.1 + 1)) (x :: b.drop (p.2 + 1)) :=
            (size_cons_self x _ _).symm
        _ ≤ size (a.drop i) (b.drop j) :=
            size_mono (cons_sublist_drop hi hx) (cons_sublist_drop hj hy)

/-- No matching is larger. -/
theorem Matching.length_le {ps : List (Nat × Nat)} (h : Matching a b ps) :
    ps.length ≤ size a b :=
  h.length_le_drop (i := 0) (j := 0) fun _ _ =>
    ⟨Nat.zero_le _, Nat.zero_le _⟩

end Lcs
