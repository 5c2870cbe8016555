/-
Matching two lists in one forward walk.

The walk looks for each element of one list at the first element of the other
that it does not skip for it, and never goes back. As what is skipped for an
element is skipped for the later ones too, that is the first such element of
the whole list (`sweep_iff`), and the elements that are matched on the way
are those that come first for some element (`sweepAll_iff`).
-/
import Mathlib.Data.List.Basic

namespace Sweep

variable {α β : Type*} (skip covers : α → β → Bool)

/-- Every element is covered where the walk stops for it. -/
def sweep : List α → List β → Bool
  | a :: as, b :: bs =>
      if skip a b then sweep as (b :: bs)
      else if covers a b then sweep (a :: as) bs else false
  | [], _ :: _ => false
  | _, [] => true
termination_by as bs => as.length + bs.length

/-- And no element is skipped that was not matched before; `matched` says
whether the one at hand was. -/
def sweepAll (matched : Bool) : List α → List β → Bool
  | a :: as, b :: bs =>
      if skip a b then if matched then sweepAll false as (b :: bs) else false
      else if covers a b then sweepAll true (a :: as) bs else false
  | [], _ :: _ => false
  | as, [] => as.tail.isEmpty
termination_by as bs => as.length + bs.length

/-- Where the walk stops for an element. -/
def stop (as : List α) (b : β) : Nat := as.findIdx fun a => !skip a b

/-- What is skipped for an element is skipped for the later ones. -/
def Monotone (as : List α) (bs : List β) : Prop :=
  ∀ a ∈ as, bs.Pairwise fun b b' => skip a b → skip a b'

variable {skip covers} {a : α} {as : List α} {b : β} {bs : List β}

theorem stop_skip (h : skip a b) :
    stop skip (a :: as) b = stop skip as b + 1 := by
  unfold stop
  rw [List.findIdx_cons, h]
  rfl

theorem stop_stay (h : ¬skip a b) : stop skip (a :: as) b = 0 := by
  unfold stop
  rw [List.findIdx_cons, Bool.eq_false_iff.mpr h]
  rfl

theorem Monotone.tail (h : Monotone skip (a :: as) bs) : Monotone skip as bs :=
  fun a' ha' => h a' (List.mem_cons_of_mem a ha')

theorem Monotone.rest (h : Monotone skip as (b :: bs)) : Monotone skip as bs :=
  fun a ha => (List.pairwise_cons.mp (h a ha)).2

theorem Monotone.skips (h : Monotone skip (a :: as) (b :: bs))
    (hskip : skip a b) : ∀ b' ∈ b :: bs, skip a b' := by
  intro b' hb'
  rcases List.mem_cons.mp hb' with rfl | hb'
  · exact hskip
  · exact (List.pairwise_cons.mp (h a List.mem_cons_self)).1 b' hb' hskip

/-- An element is covered where the walk over the whole list stops for it. -/
def Covered (skip covers : α → β → Bool) (as : List α) (b : β) : Prop :=
  ∃ a, as[stop skip as b]? = some a ∧ covers a b

theorem covered_skip (h : skip a b) :
    Covered skip covers (a :: as) b ↔ Covered skip covers as b := by
  unfold Covered
  rw [stop_skip h, List.getElem?_cons_succ]

theorem covered_stay (h : ¬skip a b) :
    Covered skip covers (a :: as) b ↔ covers a b := by
  unfold Covered
  rw [stop_stay h, List.getElem?_cons_zero]
  constructor
  · rintro ⟨_, heq, hcover⟩
    exact Option.some.inj heq ▸ hcover
  · exact fun hcover => ⟨a, rfl, hcover⟩

/-- The walk stops behind elements that it skips. -/
theorem stop_eq_iff {pre post : List α} (h : as = pre ++ a :: post) :
    stop skip as b = pre.length ↔ (∀ a' ∈ pre, skip a' b) ∧ ¬skip a b := by
  subst h
  induction pre with
  | nil =>
      rw [List.nil_append, List.length_nil]
      constructor
      · intro hstop
        refine ⟨fun a' ha' => absurd ha' List.not_mem_nil, fun hskip => ?_⟩
        rw [stop_skip hskip] at hstop
        cases hstop
      · exact fun hstay => stop_stay hstay.2
  | cons a' pre ih =>
      rw [List.cons_append, List.length_cons, List.forall_mem_cons]
      by_cases hskip : skip a' b
      · rw [stop_skip hskip, Nat.add_right_cancel_iff, ih,
          and_iff_right hskip]
      · rw [stop_stay hskip]
        exact iff_of_false (Nat.succ_ne_zero _).symm fun h => hskip h.1.1

/-- An element is covered by the first one that is not skipped for it. -/
theorem covered_iff : Covered skip covers as b ↔ ∃ pre a post,
    as = pre ++ a :: post ∧ (∀ a' ∈ pre, skip a' b) ∧ ¬skip a b ∧
      covers a b := by
  constructor
  · rintro ⟨a, ha, hcover⟩
    obtain ⟨hlt, heq⟩ := List.getElem?_eq_some_iff.mp ha
    have hsplit : as = as.take (stop skip as b) ++
        a :: as.drop (stop skip as b + 1) := by
      rw [← heq, List.getElem_cons_drop, List.take_append_drop]
    have hlen : (as.take (stop skip as b)).length = stop skip as b := by
      rw [List.length_take]
      omega
    obtain ⟨hpre, hstay⟩ := (stop_eq_iff hsplit).mp hlen.symm
    exact ⟨_, a, _, hsplit, hpre, hstay, hcover⟩
  · rintro ⟨pre, a, post, hsplit, hpre, hstay, hcover⟩
    refine ⟨a, ?_, hcover⟩
    rw [(stop_eq_iff hsplit).mpr ⟨hpre, hstay⟩, hsplit,
      List.getElem?_append_right (Nat.le_refl _), Nat.sub_self,
      List.getElem?_cons_zero]

/-- The first element that is not skipped, if there is one. -/
theorem exists_first (ha : a ∈ as) (hstay : ¬skip a b) : ∃ pre first post,
    as = pre ++ first :: post ∧ (∀ a' ∈ pre, skip a' b) ∧ ¬skip first b ∧
      (first = a ∨ a ∈ post) := by
  induction as with
  | nil => exact absurd ha List.not_mem_nil
  | cons a' as ih =>
      by_cases hskip : skip a' b
      · have hne : a ≠ a' := fun heq => hstay (heq ▸ hskip)
        obtain ⟨pre, first, post, rfl, hpre, hfirst, hlate⟩ :=
          ih (List.mem_of_ne_of_mem hne ha)
        exact ⟨a' :: pre, first, post, rfl,
          List.forall_mem_cons.mpr ⟨hskip, hpre⟩, hfirst, hlate⟩
      · refine ⟨[], a', as, rfl, fun _ h => absurd h List.not_mem_nil, hskip,
          ?_⟩
        exact (List.mem_cons.mp ha).imp_left Eq.symm

theorem not_covered_nil : ¬Covered skip covers [] b := by
  rintro ⟨a, ha, -⟩
  cases ha

theorem sweep_iff (h : Monotone skip as bs) :
    sweep skip covers as bs ↔ ∀ b ∈ bs, Covered skip covers as b := by
  fun_induction sweep skip covers as bs with
  | case1 a as b bs hskip ih =>
      rw [ih h.tail]
      exact forall₂_congr fun b' hb' =>
        (covered_skip (h.skips hskip b' hb')).symm
  | case2 a as b bs hstay hcover ih =>
      rw [ih h.rest, List.forall_mem_cons, covered_stay hstay]
      exact (and_iff_right hcover).symm
  | case3 a as b bs hstay hcover =>
      refine iff_of_false Bool.false_ne_true fun hall => hcover ?_
      exact (covered_stay hstay).mp (hall b List.mem_cons_self)
  | case4 b bs =>
      refine iff_of_false Bool.false_ne_true fun hall => ?_
      exact not_covered_nil (hall b List.mem_cons_self)
  | case5 as => exact iff_of_true rfl fun b hb => absurd hb List.not_mem_nil

/-- All are covered, and each element of the first list is where the walk
stops for one of the second, but for the first one if it counts as matched. -/
theorem sweepAll_iff {matched : Bool} (h : Monotone skip as bs)
    (hm : matched = true ∨ bs ≠ []) :
    sweepAll skip covers matched as bs ↔
      (∀ b ∈ bs, Covered skip covers as b) ∧
        ∀ i < as.length, (i = 0 → matched = false) →
          ∃ b ∈ bs, stop skip as b = i := by
  fun_induction sweepAll skip covers matched as bs with
  | case1 a as b bs hskip ih =>
      have hall := h.skips hskip
      rw [ih h.tail (.inr (List.cons_ne_nil b bs))]
      refine and_congr (forall₂_congr fun b' hb' =>
        (covered_skip (hall b' hb')).symm) ?_
      constructor
      · intro hstop i hi hfirst
        obtain ⟨j, rfl⟩ := Nat.exists_eq_succ_of_ne_zero
          fun hzero => Bool.noConfusion (hfirst hzero)
        obtain ⟨b', hb', heq⟩ :=
          hstop j (Nat.lt_of_succ_lt_succ hi) fun _ => rfl
        exact ⟨b', hb', by rw [stop_skip (hall b' hb'), heq]⟩
      · intro hstop i hi _
        obtain ⟨b', hb', heq⟩ := hstop (i + 1) (Nat.succ_lt_succ hi)
          fun hzero => absurd hzero (Nat.succ_ne_zero i)
        rw [stop_skip (hall b' hb')] at heq
        exact ⟨b', hb', Nat.succ.inj heq⟩
  | case2 matched a as b bs hskip hmatched =>
      have hall := h.skips hskip
      refine iff_of_false Bool.false_ne_true ?_
      rintro ⟨-, hstop⟩
      obtain ⟨b', hb', heq⟩ := hstop 0 (Nat.succ_pos _)
        fun _ => Bool.eq_false_iff.mpr hmatched
      rw [stop_skip (hall b' hb')] at heq
      cases heq
  | case3 matched a as b bs hstay hcover ih =>
      rw [ih h.rest (.inl rfl), List.forall_mem_cons, covered_stay hstay,
        and_iff_right hcover]
      refine and_congr_right fun _ => ?_
      constructor
      · intro hstop i hi _
        by_cases hzero : i = 0
        · exact ⟨b, List.mem_cons_self, hzero ▸ stop_stay hstay⟩
        · obtain ⟨b', hb', heq⟩ := hstop i hi fun h => absurd h hzero
          exact ⟨b', List.mem_cons_of_mem b hb', heq⟩
      · intro hstop i hi hfirst
        have hpos : i ≠ 0 := fun hzero => Bool.noConfusion (hfirst hzero)
        obtain ⟨b', hb', heq⟩ := hstop i hi fun h => absurd h hpos
        rcases List.mem_cons.mp hb' with rfl | hb'
        · exact absurd (heq.symm.trans (stop_stay hstay)) hpos
        · exact ⟨b', hb', heq⟩
  | case4 matched a as b bs hstay hcover =>
      refine iff_of_false Bool.false_ne_true ?_
      rintro ⟨hall, -⟩
      exact hcover ((covered_stay hstay).mp (hall b List.mem_cons_self))
  | case5 matched b bs =>
      refine iff_of_false Bool.false_ne_true ?_
      rintro ⟨hall, -⟩
      exact not_covered_nil (hall b List.mem_cons_self)
  | case6 matched as =>
      obtain rfl : matched = true := hm.resolve_right fun hne => hne rfl
      rw [List.isEmpty_iff]
      constructor
      · intro htail
        refine ⟨fun b hb => absurd hb List.not_mem_nil, fun i hi hfirst => ?_⟩
        have hlen := congrArg List.length htail
        rw [List.length_tail, List.length_nil] at hlen
        exact Bool.noConfusion (hfirst (by omega))
      · rintro ⟨-, hstop⟩
        by_contra hne
        have hlen := List.length_pos_iff.mpr hne
        rw [List.length_tail] at hlen
        obtain ⟨b, hb, -⟩ := hstop 1 (by omega)
          fun h => absurd h Nat.one_ne_zero
        exact absurd hb List.not_mem_nil

end Sweep
