/-
Functions given by runs: half-open stretches of positions, each with the
value the function has there.

`valuesAt` is what a list of runs says of a position: the values of the
runs over it. It does not see the order of the runs beyond that, and it
adds up over `++`, so what an operation on lists of runs means is read
off it. In a list that is `Scattered` it has at most one value. A
`Canonical` list is the one way to write down its function
(`Canonical.ext`).
-/
import Mathlib.Order.Lattice
import Mathlib.Data.List.Basic

/-- A stretch of positions with one value. -/
structure Run (α V : Type*) where
  start : α
  /-- One past the last position. -/
  stop : α
  value : V
  deriving DecidableEq, Repr

namespace Run

variable {α V : Type*} [LinearOrder α]

/-- The position is in the run. -/
def Covers (r : Run α V) (x : α) : Prop := r.start ≤ x ∧ x < r.stop

instance (r : Run α V) (x : α) : Decidable (r.Covers x) :=
  inferInstanceAs (Decidable (_ ∧ _))

/-- The values runs have at a position. -/
def valuesAt (runs : List (Run α V)) (x : α) : List V :=
  (runs.filter fun r => r.Covers x).map Run.value

/-- No position is in two runs. -/
def Scattered (runs : List (Run α V)) : Prop :=
  ∀ x, (valuesAt runs x).length ≤ 1

/-- Each run stops before the next ones start. -/
def Apart (runs : List (Run α V)) : Prop :=
  runs.Pairwise fun a b => a.stop ≤ b.start

/-- No run is empty. -/
def Filled (runs : List (Run α V)) : Prop := ∀ r ∈ runs, r.start < r.stop

instance (runs : List (Run α V)) : Decidable (Apart runs) :=
  inferInstanceAs (Decidable (runs.Pairwise fun a b => a.stop ≤ b.start))

instance (runs : List (Run α V)) : Decidable (Filled runs) :=
  inferInstanceAs (Decidable (∀ r ∈ runs, r.start < r.stop))

/-- The one way to write down a function that has `blank` almost
everywhere: runs in order, none of them empty or blank, and one run
wherever there could be one. -/
structure Canonical (blank : V) (runs : List (Run α V)) : Prop where
  apart : Apart runs
  filled : Filled runs
  notBlank : ∀ r ∈ runs, r.value ≠ blank
  longest : runs.Pairwise fun a b => a.stop = b.start → a.value ≠ b.value

variable {r r₁ r₂ : Run α V} {l l₁ l₂ : List (Run α V)} {x : α} {v blank : V}

-- == values at a point

@[simp] theorem valuesAt_nil : valuesAt ([] : List (Run α V)) x = [] := rfl

theorem valuesAt_cons :
    valuesAt (r :: l) x = (if r.Covers x then [r.value] else []) ++ valuesAt l x := by
  by_cases h : r.Covers x
  · simp [valuesAt, h]
  · simp [valuesAt, h]

@[simp] theorem valuesAt_append :
    valuesAt (l₁ ++ l₂) x = valuesAt l₁ x ++ valuesAt l₂ x := by
  simp [valuesAt]

theorem mem_valuesAt :
    v ∈ valuesAt l x ↔ ∃ r ∈ l, r.Covers x ∧ r.value = v := by
  simp [valuesAt, and_assoc]

theorem valuesAt_eq_nil : valuesAt l x = [] ↔ ∀ r ∈ l, ¬ r.Covers x := by
  simp [valuesAt]

/-- Of the runs that are left, the values are those that pass. -/
theorem valuesAt_filter {p : Run α V → Bool} {q : V → Bool}
    (h : ∀ r ∈ l, r.Covers x → p r = q r.value) :
    valuesAt (l.filter p) x = (valuesAt l x).filter q := by
  induction l with
  | nil => rfl
  | cons r l ih =>
      obtain ⟨hr, hl⟩ := List.forall_mem_cons.mp h
      rw [valuesAt_cons, List.filter_append, ← ih hl, List.filter_cons]
      by_cases hc : r.Covers x
      · rw [if_pos hc]
        cases hp : p r with
        | true =>
            rw [if_pos rfl, valuesAt_cons, if_pos hc]
            simp [← hr hc, hp]
        | false =>
            simp [← hr hc, hp]
      · rw [if_neg hc]
        split
        · rw [valuesAt_cons, if_neg hc]
          rfl
        · rfl

/-- In another order, scattered runs have the same values. -/
theorem Scattered.perm (h : Scattered l₁) (hp : l₁.Perm l₂) :
    valuesAt l₁ x = valuesAt l₂ x := by
  have hperm : (valuesAt l₁ x).Perm (valuesAt l₂ x) :=
    (hp.filter _).map Run.value
  have hlen := h x
  cases hcase : valuesAt l₁ x with
  | nil =>
      rw [hcase] at hperm
      exact hperm.nil_eq
  | cons v rest =>
      rw [hcase, List.length_cons] at hlen
      have hnil : rest = [] := List.eq_nil_of_length_eq_zero (by omega)
      rw [hcase, hnil] at hperm
      rw [hnil]
      exact List.singleton_perm.mp hperm

-- == runs in order

theorem Apart.tail (h : Apart (r :: l)) : Apart l :=
  (List.pairwise_cons.mp h).2

theorem Filled.tail (h : Filled (r :: l)) : Filled l :=
  (List.forall_mem_cons.mp h).2

/-- Runs behind the first one have no values in front of its stop. -/
theorem Apart.valuesAt_eq_nil (h : Apart (r :: l)) (hx : x < r.stop) :
    valuesAt l x = [] := by
  rw [Run.valuesAt_eq_nil]
  intro r' hr' hc
  have hle := (List.pairwise_cons.mp h).1 r' hr'
  exact absurd (hle.trans hc.1) (not_le.mpr hx)

/-- No run has a value in front of the first one. -/
theorem Apart.valuesAt_of_lt_start (h : Apart (r :: l)) (hr : r.start ≤ r.stop)
    (hx : x < r.start) : valuesAt (r :: l) x = [] := by
  rw [valuesAt_cons, if_neg fun hc => absurd hc.1 (not_le.mpr hx),
    h.valuesAt_eq_nil (hx.trans_le hr)]
  rfl

theorem Apart.scattered (h : Apart l) : Scattered l := by
  intro x
  induction l with
  | nil => exact Nat.zero_le 1
  | cons r l ih =>
      rw [valuesAt_cons]
      by_cases hc : r.Covers x
      · rw [h.valuesAt_eq_nil hc.2]
        simp [hc]
      · rw [if_neg hc]
        exact ih h.tail

/-- Scattered runs that are sorted by start are in order. -/
theorem Scattered.apart (h : Scattered l) (hf : Filled l)
    (hs : l.Pairwise fun a b => a.start ≤ b.start) : Apart l := by
  induction l with
  | nil => exact .nil
  | cons r l ih =>
      obtain ⟨hr, hs⟩ := List.pairwise_cons.mp hs
      have htail : Scattered l := by
        intro x
        have hx := h x
        rw [valuesAt_cons, List.length_append] at hx
        omega
      refine List.pairwise_cons.mpr ⟨fun r' hr' => ?_, ih htail hf.tail hs⟩
      by_contra hlt
      -- the start of the later run would be in both
      have hx := h r'.start
      have hin : r.Covers r'.start := ⟨hr r' hr', not_le.mp hlt⟩
      have hin' : r'.value ∈ valuesAt l r'.start :=
        mem_valuesAt.mpr ⟨r', hr', ⟨le_rfl, hf.tail r' hr'⟩, rfl⟩
      rw [valuesAt_cons, if_pos hin, List.length_append,
        List.length_singleton] at hx
      have hpos := List.length_pos_of_mem hin'
      omega

-- == uniqueness

theorem Canonical.nil : Canonical blank ([] : List (Run α V)) := by
  refine ⟨.nil, ?_, ?_, .nil⟩
  · intro r hr
    cases hr
  · intro r hr
    cases hr

theorem Canonical.tail (h : Canonical blank (r :: l)) : Canonical blank l :=
  ⟨h.apart.tail, h.filled.tail, (List.forall_mem_cons.mp h.notBlank).2,
    (List.pairwise_cons.mp h.longest).2⟩

theorem Canonical.head_filled (h : Canonical blank (r :: l)) :
    r.start < r.stop := h.filled r List.mem_cons_self

/-- A canonical list has the value of its first run where that starts. -/
theorem Canonical.valuesAt_start (h : Canonical blank (r :: l)) :
    valuesAt (r :: l) r.start = [r.value] := by
  have hc : r.Covers r.start := ⟨le_rfl, h.head_filled⟩
  rw [valuesAt_cons, if_pos hc, h.apart.valuesAt_eq_nil hc.2]
  rfl

/-- Where its first run stops a canonical list does not go on with the
same value. -/
theorem Canonical.valuesAt_stop (h : Canonical blank (r :: l)) :
    valuesAt (r :: l) r.stop ≠ [r.value] := by
  rw [valuesAt_cons, if_neg fun hc => absurd hc.2 (lt_irrefl _)]
  intro heq
  have hmem : r.value ∈ valuesAt l r.stop := by
    rw [List.nil_append] at heq
    rw [heq]
    exact List.mem_singleton_self _
  obtain ⟨r', hr', hc, hval⟩ := mem_valuesAt.mp hmem
  have hle := (List.pairwise_cons.mp h.apart).1 r' hr'
  exact (List.pairwise_cons.mp h.longest).1 r' hr' (le_antisymm hle hc.1)
    hval.symm

/-- Of two canonical lists with the same values, the first run of one
does not start sooner. -/
private theorem Canonical.start_le (h₁ : Canonical blank (r₁ :: l₁))
    (h₂ : Canonical blank (r₂ :: l₂))
    (h : ∀ x, valuesAt (r₁ :: l₁) x = valuesAt (r₂ :: l₂) x) :
    r₂.start ≤ r₁.start := by
  by_contra hlt
  have hval := h r₁.start
  rw [h₁.valuesAt_start, h₂.apart.valuesAt_of_lt_start h₂.head_filled.le
    (not_le.mp hlt)] at hval
  cases hval

/-- Nor does it stop later, if the runs start together. -/
private theorem Canonical.stop_le (h₁ : Canonical blank (r₁ :: l₁))
    (h₂ : Canonical blank (r₂ :: l₂))
    (h : ∀ x, valuesAt (r₁ :: l₁) x = valuesAt (r₂ :: l₂) x)
    (hstart : r₁.start = r₂.start) (hvalue : r₁.value = r₂.value) :
    r₁.stop ≤ r₂.stop := by
  by_contra hlt
  have hc : r₁.Covers r₂.stop :=
    ⟨hstart.le.trans h₂.head_filled.le, not_le.mp hlt⟩
  have hval := h r₂.stop
  rw [valuesAt_cons, if_pos hc, h₁.apart.valuesAt_eq_nil hc.2,
    List.append_nil, hvalue] at hval
  exact h₂.valuesAt_stop hval.symm

/-- Canonical lists with the same values are the same list. -/
theorem Canonical.ext (h₁ : Canonical blank l₁) (h₂ : Canonical blank l₂)
    (h : ∀ x, valuesAt l₁ x = valuesAt l₂ x) : l₁ = l₂ := by
  induction l₁ generalizing l₂ with
  | nil =>
      cases l₂ with
      | nil => rfl
      | cons r₂ l₂ =>
          have hval := h r₂.start
          rw [h₂.valuesAt_start] at hval
          cases hval
  | cons r₁ l₁ ih =>
      cases l₂ with
      | nil =>
          have hval := h r₁.start
          rw [h₁.valuesAt_start] at hval
          cases hval
      | cons r₂ l₂ =>
          have hstart : r₁.start = r₂.start :=
            le_antisymm (h₂.start_le h₁ fun x => (h x).symm) (h₁.start_le h₂ h)
          have hvalue : r₁.value = r₂.value := by
            have hval := h r₁.start
            rw [h₁.valuesAt_start, hstart, h₂.valuesAt_start] at hval
            exact List.head_eq_of_cons_eq hval
          have hstop : r₁.stop = r₂.stop :=
            le_antisymm (h₁.stop_le h₂ h hstart hvalue)
              (h₂.stop_le h₁ (fun x => (h x).symm) hstart.symm hvalue.symm)
          have hrun : r₁ = r₂ := by
            cases r₁
            cases r₂
            simp_all
          subst hrun
          refine congrArg (r₁ :: ·) (ih h₁.tail h₂.tail fun x => ?_)
          have hval := h x
          rw [valuesAt_cons, valuesAt_cons] at hval
          exact List.append_cancel_left hval

end Run
