/-
Replacing spans of a list, over arbitrary elements.

A splice puts new elements where a span of the list is; an empty span makes
it an insertion. Splices that do not meet (`Apart`) can be carried out
together, and what comes out is described element by element (`applied`),
without saying in which order they are carried out. `run` is the sweep from
left to right that carries out sorted ones; it does the same (`run_eq`).
-/
import Mathlib.Data.List.Basic
import Mathlib.Data.List.Infix
import Mathlib.Data.List.Pairwise
import Mathlib.Algebra.Group.Nat.Defs

/-- Put `repl` in the place of the span from `start` to `stop`. -/
structure Splice (α : Type*) where
  start : Nat
  stop : Nat
  repl : List α
  deriving DecidableEq, Repr

namespace Splice

variable {α : Type*}

/-- A splice of an empty span. -/
def IsInsertion (e : Splice α) : Prop := e.start = e.stop

instance (e : Splice α) : Decidable e.IsInsertion :=
  inferInstanceAs (Decidable (_ = _))

/-- The span is a span of a list of that length. -/
structure Within (n : Nat) (e : Splice α) : Prop where
  start_le : e.start ≤ e.stop
  stop_le : e.stop ≤ n

/-- The two spans have something in common; an empty one has its point in
common with the spans it is strictly inside of. -/
def Overlaps (e f : Splice α) : Prop := e.start < f.stop ∧ f.start < e.stop

/-- Two insertions at one point. -/
def Collides (e f : Splice α) : Prop :=
  e.IsInsertion ∧ f.IsInsertion ∧ e.start = f.start

/-- The two cannot both be carried out. -/
def Clashes (e f : Splice α) : Prop := e.Overlaps f ∨ e.Collides f

/-- The second splice can be carried out after the first. -/
def Apart (e f : Splice α) : Prop := e.stop ≤ f.start ∧ ¬ e.Collides f

/-- The order of the spans. -/
def Le (e f : Splice α) : Prop :=
  e.start < f.start ∨ e.start = f.start ∧ e.stop ≤ f.stop

instance (e f : Splice α) : Decidable (e.Le f) :=
  inferInstanceAs (Decidable (_ ∨ _))

-- == all at once

/-- What is inserted at a point. -/
def inserted (edits : List (Splice α)) (k : Nat) : List α :=
  ((edits.find? fun e => e.start = k ∧ e.stop = k).map repl).getD []

/-- What takes the place of the span that starts at a point. -/
def replaced (edits : List (Splice α)) (k : Nat) : List α :=
  ((edits.find? fun e => e.start = k ∧ k < e.stop).map repl).getD []

/-- The element at a point, unless a span covers it. -/
def kept (edits : List (Splice α)) (base : List α) (k : Nat) : List α :=
  if edits.any fun e => e.start ≤ k ∧ k < e.stop then [] else base[k]?.toList

/-- What comes out for one point of the list: what is inserted there, then
what replaces the span that starts there, then the element itself. -/
def atPoint (edits : List (Splice α)) (base : List α) (k : Nat) : List α :=
  inserted edits k ++ (replaced edits k ++ kept edits base k)

/-- The list with every splice carried out once. -/
def applied (edits : List (Splice α)) (base : List α) : List α :=
  (List.range (base.length + 1)).flatMap (atPoint edits base)

-- == left to right

/-- Carry out splices from left to right, from a position on. -/
def run (base : List α) : List (Splice α) → Nat → List α
  | [], cur => base.drop cur
  | e :: edits, cur =>
      (base.drop cur).take (e.start - cur) ++ e.repl ++
        run base edits e.stop

variable {edits : List (Splice α)} {base : List α} {e f : Splice α}

-- == point by point

attribute [grind =] run

variable {k n : Nat}

theorem inserted_eq_nil (h : ∀ f ∈ edits, f.start = k → f.stop ≠ k) :
    inserted edits k = [] := by
  rw [inserted, List.find?_eq_none.mpr]
  · rfl
  · intro f hf hp
    have heq := decide_eq_true_iff.mp hp
    exact h f hf heq.1 heq.2

theorem replaced_eq_nil (h : ∀ f ∈ edits, f.start = k → f.stop ≤ k) :
    replaced edits k = [] := by
  rw [replaced, List.find?_eq_none.mpr]
  · rfl
  · intro f hf hp
    have heq := decide_eq_true_iff.mp hp
    exact Nat.not_le_of_lt heq.2 (h f hf heq.1)

theorem kept_of_not_covered (h : ∀ f ∈ edits, f.start ≤ k → f.stop ≤ k) :
    kept edits base k = base[k]?.toList := by
  rw [kept, if_neg]
  rw [List.any_eq_true]
  rintro ⟨f, hf, hp⟩
  have hcover := decide_eq_true_iff.mp hp
  exact Nat.not_le_of_lt hcover.2 (h f hf hcover.1)

/-- In front of all splices there is the list itself. -/
theorem atPoint_before (h : ∀ f ∈ edits, k < f.start) :
    atPoint edits base k = base[k]?.toList := by
  have hne : ∀ f ∈ edits, f.start ≠ k := fun f hf => Nat.ne_of_gt (h f hf)
  rw [atPoint, inserted_eq_nil fun f hf heq => absurd heq (hne f hf),
    replaced_eq_nil fun f hf heq => absurd heq (hne f hf),
    kept_of_not_covered fun f hf hle => absurd (h f hf) (by omega),
    List.nil_append, List.nil_append]

/-- Behind its span a splice does not matter. -/
theorem atPoint_behind (hstart : e.start < k) (hstop : e.stop ≤ k) :
    atPoint (e :: edits) base k = atPoint edits base k := by
  have hins : inserted (e :: edits) k = inserted edits k := by
    rw [inserted, List.find?_cons_of_neg]
    · rfl
    · rw [decide_eq_true_iff]
      omega
  have hrep : replaced (e :: edits) k = replaced edits k := by
    rw [replaced, List.find?_cons_of_neg]
    · rfl
    · rw [decide_eq_true_iff]
      omega
  have hkept : kept (e :: edits) base k = kept edits base k := by
    rw [kept, List.any_cons, decide_eq_false (by omega), Bool.false_or]
    rfl
  rw [atPoint, hins, hrep, hkept]
  rfl

/-- An insertion at its point. -/
theorem atPoint_insertion (he : e.IsInsertion)
    (h : ∀ f ∈ edits, e.Apart f) :
    atPoint (e :: edits) base e.start =
      e.repl ++ atPoint edits base e.start := by
  have hins : inserted (e :: edits) e.start = e.repl := by
    rw [inserted, List.find?_cons_of_pos]
    · rfl
    · exact decide_eq_true ⟨rfl, Eq.symm he⟩
  have hnil : inserted edits e.start = [] := by
    apply inserted_eq_nil
    intro f hf hstart hstop
    exact (h f hf).2 ⟨he, hstart.trans hstop.symm, hstart.symm⟩
  have hlt : ¬ e.start < e.stop := by
    rw [show e.start = e.stop from he]
    exact Nat.lt_irrefl _
  have hrep : replaced (e :: edits) e.start = replaced edits e.start := by
    rw [replaced, List.find?_cons_of_neg]
    · rfl
    · rw [decide_eq_true_iff]
      exact fun hp => hlt hp.2
  have hkept : kept (e :: edits) base e.start = kept edits base e.start := by
    rw [kept, List.any_cons, decide_eq_false fun hp => hlt hp.2,
      Bool.false_or]
    rfl
  rw [atPoint, atPoint, hins, hrep, hkept, hnil, List.nil_append]

/-- A replacement at the start of its span. -/
theorem atPoint_replacement (he : e.start < e.stop)
    (h : ∀ f ∈ edits, e.stop ≤ f.start) :
    atPoint (e :: edits) base e.start = e.repl := by
  have hins : inserted (e :: edits) e.start = [] := by
    apply inserted_eq_nil
    intro f hf hstart hstop
    rcases List.mem_cons.mp hf with rfl | hf
    · omega
    · have hle := h f hf
      omega
  have hrep : replaced (e :: edits) e.start = e.repl := by
    rw [replaced, List.find?_cons_of_pos]
    · rfl
    · exact decide_eq_true ⟨rfl, he⟩
  have hkept : kept (e :: edits) base e.start = [] := by
    rw [kept, if_pos]
    rw [List.any_cons, decide_eq_true ⟨Nat.le_refl _, he⟩, Bool.true_or]
  rw [atPoint, hins, hrep, hkept, List.nil_append, List.append_nil]

/-- Inside its span a replacement leaves nothing. -/
theorem atPoint_inside (hstart : e.start < k) (hstop : k < e.stop)
    (h : ∀ f ∈ edits, e.stop ≤ f.start) :
    atPoint (e :: edits) base k = [] := by
  have hne : ∀ f ∈ e :: edits, f.start ≠ k := by
    intro f hf
    rcases List.mem_cons.mp hf with rfl | hf
    · omega
    · have hle := h f hf
      omega
  have hkept : kept (e :: edits) base k = [] := by
    rw [kept, if_pos]
    rw [List.any_cons, decide_eq_true ⟨Nat.le_of_lt hstart, hstop⟩,
      Bool.true_or]
  rw [atPoint, inserted_eq_nil fun f hf heq => absurd heq (hne f hf),
    replaced_eq_nil fun f hf heq => absurd heq (hne f hf), hkept]
  rfl

-- == the sweep

theorem flatMap_getElem? (base : List α) (m n : Nat) :
    (List.range' m n).flatMap (fun k => base[k]?.toList) =
      (base.drop m).take n := by
  induction n generalizing m with
  | zero => rfl
  | succ n ih =>
      rw [List.range'_succ, List.flatMap_cons, ih]
      by_cases hm : m < base.length
      · rw [List.getElem?_eq_getElem hm, List.drop_eq_getElem_cons hm]
        rfl
      · rw [List.getElem?_eq_none (by omega),
          List.drop_eq_nil_of_le (by omega), List.drop_eq_nil_of_le (by omega),
          List.take_nil, List.take_nil]
        rfl

theorem range'_split {i j : Nat} (hij : i ≤ j) (hjn : j ≤ n) :
    List.range' i (n - i) =
      List.range' i (j - i) ++ List.range' j (n - j) := by
  have hj : j = i + (j - i) := by omega
  conv_rhs => rw [hj]
  rw [Nat.add_sub_cancel_left, List.range'_append_1]
  congr 1
  omega

/-- An insertion in front of what is left. -/
theorem points_insertion (he : e.IsInsertion) (hn : e.start < n)
    (h : ∀ f ∈ edits, e.Apart f) :
    (List.range' e.start (n - e.start)).flatMap (atPoint (e :: edits) base) =
      e.repl ++
        (List.range' e.start (n - e.start)).flatMap (atPoint edits base) := by
  obtain ⟨m, hm⟩ : ∃ m, n - e.start = m + 1 := ⟨n - e.start - 1, by omega⟩
  have hrest : (List.range' (e.start + 1) m).flatMap
        (atPoint (e :: edits) base) =
      (List.range' (e.start + 1) m).flatMap (atPoint edits base) := by
    apply List.flatMap_congr
    intro k hk
    have hlt := (List.mem_range'_1.mp hk).1
    exact atPoint_behind hlt (by rw [← show e.start = e.stop from he]; omega)
  rw [hm, List.range'_succ, List.flatMap_cons, List.flatMap_cons, hrest,
    atPoint_insertion he h, List.append_assoc]

/-- A replacement in front of what is left. -/
theorem points_replacement (he : e.start < e.stop) (hn : e.stop ≤ n)
    (h : ∀ f ∈ edits, e.stop ≤ f.start) :
    (List.range' e.start (n - e.start)).flatMap (atPoint (e :: edits) base) =
      e.repl ++
        (List.range' e.stop (n - e.stop)).flatMap (atPoint edits base) := by
  obtain ⟨m, hm⟩ : ∃ m, e.stop - e.start = m + 1 :=
    ⟨e.stop - e.start - 1, by omega⟩
  have hinside : (List.range' (e.start + 1) m).flatMap
      (atPoint (e :: edits) base) = [] := by
    rw [List.flatMap_eq_nil_iff]
    intro k hk
    have hlt := List.mem_range'_1.mp hk
    exact atPoint_inside hlt.1 (by omega) h
  have hrest : (List.range' e.stop (n - e.stop)).flatMap
        (atPoint (e :: edits) base) =
      (List.range' e.stop (n - e.stop)).flatMap (atPoint edits base) := by
    apply List.flatMap_congr
    intro k hk
    have hle := (List.mem_range'_1.mp hk).1
    exact atPoint_behind (by omega) hle
  rw [range'_split (Nat.le_of_lt he) hn, List.flatMap_append, hrest, hm,
    List.range'_succ, List.flatMap_cons, hinside, List.append_nil,
    atPoint_replacement he h]

/-- The sweep copies what is in front of all splices. -/
theorem run_skip {cur : Nat} (hk : cur ≤ k) (h : ∀ e ∈ edits, k ≤ e.start) :
    run base edits cur =
      (base.drop cur).take (k - cur) ++ run base edits k := by
  have hsplit : ∀ stop, k ≤ stop → (base.drop cur).take (stop - cur) =
      (base.drop cur).take (k - cur) ++ (base.drop k).take (stop - k) := by
    intro stop hstop
    rw [show stop - cur = (k - cur) + (stop - k) by omega, List.take_add,
      List.drop_drop, Nat.add_sub_cancel' hk]
  cases edits with
  | nil =>
      have hdrop : base.drop k = (base.drop cur).drop (k - cur) := by
        rw [List.drop_drop, Nat.add_sub_cancel' hk]
      rw [run, run, hdrop, List.take_append_drop]
  | cons e edits =>
      rw [run, run, hsplit e.start (h e List.mem_cons_self),
        List.append_assoc, List.append_assoc, List.append_assoc]

/-- The sweep from a position on is what comes out for the points from
there on. -/
theorem run_eq_points (hwithin : ∀ e ∈ edits, e.Within base.length)
    (hapart : edits.Pairwise Apart) {cur : Nat}
    (hcur : ∀ e ∈ edits, cur ≤ e.start) (hn : cur ≤ base.length) :
    run base edits cur =
      (List.range' cur (base.length + 1 - cur)).flatMap
        (atPoint edits base) := by
  induction edits generalizing cur with
  | nil =>
      have hall : (List.range' cur (base.length + 1 - cur)).flatMap
            (atPoint [] base) =
          (List.range' cur (base.length + 1 - cur)).flatMap
            fun k => base[k]?.toList :=
        List.flatMap_congr fun k _ => atPoint_before fun f hf => nomatch hf
      rw [hall, flatMap_getElem?, List.take_of_length_le]
      · rfl
      · rw [List.length_drop]
        omega
  | cons e edits ih =>
      obtain ⟨⟨hle, hstop⟩, hwithin⟩ := List.forall_mem_cons.mp hwithin
      obtain ⟨he, hapart⟩ := List.pairwise_cons.mp hapart
      obtain ⟨hcur, -⟩ := List.forall_mem_cons.mp hcur
      have hbehind : ∀ f ∈ edits, e.stop ≤ f.start := fun f hf => (he f hf).1
      have hfront : (List.range' cur (e.start - cur)).flatMap
            (atPoint (e :: edits) base) =
          (base.drop cur).take (e.start - cur) := by
        rw [← flatMap_getElem?]
        apply List.flatMap_congr
        intro k hk
        have hlt := List.mem_range'_1.mp hk
        refine atPoint_before (List.forall_mem_cons.mpr ⟨by omega, ?_⟩)
        intro f hf
        have hlater := hbehind f hf
        omega
      have hrun := ih hwithin hapart hbehind hstop
      rw [range'_split hcur (by omega : e.start ≤ base.length + 1),
        List.flatMap_append, hfront, run, List.append_assoc, hrun]
      rcases Nat.eq_or_lt_of_le hle with hins | hlt
      · rw [points_insertion hins (by omega) he, ← hins]
      · rw [points_replacement hlt (by omega) hbehind]

/-- The sweep carries every splice out. -/
theorem run_eq (hwithin : ∀ e ∈ edits, e.Within base.length)
    (hapart : edits.Pairwise Apart) :
    run base edits 0 = applied edits base := by
  rw [run_eq_points hwithin hapart (fun e _ => Nat.zero_le _) (Nat.zero_le _),
    applied, List.range_eq_range', Nat.sub_zero]

-- == clashes

theorem Clashes.symm (h : e.Clashes f) : f.Clashes e := by
  rcases h with h | h
  · exact .inl ⟨h.2, h.1⟩
  · exact .inr ⟨h.2.1, h.1, h.2.2.symm⟩

theorem Apart.not_clashes (h : e.Apart f) : ¬ e.Clashes f := by
  rintro (hover | hcollide)
  · exact Nat.not_le_of_lt hover.2 h.1
  · exact h.2 hcollide

/-- In the order of their spans, splices that do not clash are apart. -/
theorem apart_of_le (hle : e.Le f) (hf : f.start ≤ f.stop)
    (h : ¬ e.Clashes f) : e.Apart f := by
  refine ⟨?_, fun hcollide => h (.inr hcollide)⟩
  by_contra hlt
  refine h (.inl ⟨?_, by omega⟩)
  rcases hle with hstart | ⟨hstart, hstop⟩
  · exact Nat.lt_of_lt_of_le hstart hf
  · omega

theorem Apart.trans {g : Splice α} (h : e.Apart f) (h' : f.Apart g)
    (hf : f.start ≤ f.stop) : e.Apart g := by
  refine ⟨Nat.le_trans h.1 (Nat.le_trans hf h'.1), fun hcollide => ?_⟩
  obtain ⟨he, hg, heq⟩ := hcollide
  have hef := h.1
  have hfg := h'.1
  have hee : e.start = e.stop := he
  -- what lies between two insertions at one point is one there itself
  exact h.2 ⟨he, show f.start = f.stop by omega, by omega⟩

theorem pairwise_of_isChain (hle : ∀ e ∈ edits, e.start ≤ e.stop)
    (h : edits.IsChain Apart) : edits.Pairwise Apart := by
  induction edits with
  | nil => exact .nil
  | cons e edits ih =>
      obtain ⟨-, hle⟩ := List.forall_mem_cons.mp hle
      have hrest := ih hle (List.isChain_of_isChain_cons h)
      refine .cons (fun f hf => ?_) hrest
      cases edits with
      | nil => cases hf
      | cons g edits =>
          have heg : e.Apart g := (List.isChain_cons_cons.mp h).1
          rcases List.mem_cons.mp hf with rfl | hf
          · exact heg
          · exact heg.trans ((List.pairwise_cons.mp hrest).1 f hf)
              (hle g List.mem_cons_self)

theorem not_clashes_of_mem (h : edits.Pairwise Apart) (he : e ∈ edits)
    (hf : f ∈ edits) (hne : e ≠ f) : ¬ e.Clashes f := by
  have hsymm : Std.Symm fun e f : Splice α => ¬ e.Clashes f :=
    ⟨fun _ _ h h' => h h'.symm⟩
  have hnot : edits.Pairwise fun e f => ¬ e.Clashes f :=
    h.imp Apart.not_clashes
  exact hnot.forall he hf hne

-- == order of edits

/-- What is found does not depend on the order of a list in which only one
element can be found. -/
theorem find?_eq_find? {xs ys : List α} {p : α → Bool}
    (hmem : ∀ x, x ∈ xs ↔ x ∈ ys)
    (huniq : ∀ x ∈ ys, ∀ y ∈ ys, p x = true → p y = true → x = y) :
    xs.find? p = ys.find? p := by
  cases hy : ys.find? p with
  | none =>
      rw [List.find?_eq_none] at hy ⊢
      exact fun x hx => hy x ((hmem x).mp hx)
  | some y =>
      have hpy := List.find?_some hy
      have hmemy := List.mem_of_find?_eq_some hy
      cases hx : xs.find? p with
      | none =>
          rw [List.find?_eq_none] at hx
          exact absurd hpy (hx y ((hmem y).mpr hmemy))
      | some x =>
          have hmemx := (hmem x).mp (List.mem_of_find?_eq_some hx)
          rw [huniq x hmemx y hmemy (List.find?_some hx) hpy]

/-- What comes out does not depend on the order in which the splices are
listed, nor on how often. -/
theorem applied_congr {edits' : List (Splice α)}
    (hmem : ∀ e, e ∈ edits' ↔ e ∈ edits) (h : edits.Pairwise Apart) :
    applied edits' base = applied edits base := by
  have hclash : ∀ e ∈ edits, ∀ f ∈ edits, e.Clashes f → e = f :=
    fun e he f hf hef => by
      by_contra hne
      exact not_clashes_of_mem h he hf hne hef
  apply List.flatMap_congr
  intro k _
  have hins : inserted edits' k = inserted edits k := by
    unfold inserted
    rw [find?_eq_find? hmem]
    intro e he f hf hpe hpf
    obtain ⟨hstart, hstop⟩ := decide_eq_true_iff.mp hpe
    obtain ⟨hstart', hstop'⟩ := decide_eq_true_iff.mp hpf
    exact hclash e he f hf (.inr ⟨hstart.trans hstop.symm,
      hstart'.trans hstop'.symm, hstart.trans hstart'.symm⟩)
  have hrep : replaced edits' k = replaced edits k := by
    unfold replaced
    rw [find?_eq_find? hmem]
    intro e he f hf hpe hpf
    obtain ⟨hstart, hstop⟩ := decide_eq_true_iff.mp hpe
    obtain ⟨hstart', hstop'⟩ := decide_eq_true_iff.mp hpf
    exact hclash e he f hf (.inl ⟨by omega, by omega⟩)
  have hkept : kept edits' base k = kept edits base k := by
    have hany : edits'.any (fun e => e.start ≤ k ∧ k < e.stop) =
        edits.any (fun e => e.start ≤ k ∧ k < e.stop) := by
      rw [Bool.eq_iff_iff, List.any_eq_true, List.any_eq_true]
      exact exists_congr fun e => and_congr_left fun _ => hmem e
    unfold kept
    rw [hany]
  rw [atPoint, atPoint, hins, hrep, hkept]

end Splice
