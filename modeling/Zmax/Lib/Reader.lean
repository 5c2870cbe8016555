/-
Readers: they take a value off the front of a list, or fail.

A reader `Reads` a value from a list when it takes off this list and
nothing behind it; so what follows a value is read where the value ends.
How two readers compare is often a relation that `Lifts`: it holds of what
is composed of readers where it holds of these. One is that a reader
`Extends` another one, which is when it does the same where this one reads
something, whatever is put behind the input; another one that two readers
`Agree` on all input up to a length.
-/

namespace Reader

variable {ε β α γ : Type}

/-- A reader yields a value and what is left of the input. -/
abbrev Of (ε β α : Type) := List β → Except ε (α × List β)

def andThen (read : Of ε β α) (next : α → Of ε β γ) : Of ε β γ :=
  fun input => read input >>= fun p => next p.1 p.2

/-- A reader of what a function makes of what another one reads. -/
def map (f : α → γ) (read : Of ε β α) : Of ε β γ :=
  andThen read fun a rest => .ok (f a, rest)

/-- The input is taken off, and nothing behind it. -/
def Reads (read : Of ε β α) (input : List β) (a : α) : Prop :=
  ∀ rest, read (input ++ rest) = .ok (a, rest)

/-- Where one reader reads something the other reads it too, whatever is
behind the input. -/
def Extends (α : Type) (read read' : Of ε β α) : Prop :=
  ∀ input a rest, read input = .ok (a, rest) →
    ∀ more, read' (input ++ more) = .ok (a, rest ++ more)

/-- Two readers do the same with inputs up to a length, and leave no more
than there was. -/
def Agree (n : Nat) (α : Type) (read read' : Of ε β α) : Prop :=
  ∀ input, input.length ≤ n → read' input = read input
    ∧ ∀ a rest, read input = .ok (a, rest) → rest.length ≤ input.length

/-- A relation of readers that holds of composed ones. -/
structure Lifts (R : (α : Type) → Of ε β α → Of ε β α → Prop) : Prop where
  pure : ∀ {α} (a : α), R α (fun bs => .ok (a, bs)) fun bs => .ok (a, bs)
  error : ∀ {α} (e : ε), R α (fun _ => .error e) fun _ => .error e
  andThen : ∀ {α γ} {read read' : Of ε β α} {next next' : α → Of ε β γ},
    R α read read' → (∀ a, R γ (next a) (next' a)) →
      R γ (andThen read next) (andThen read' next')

variable {read read' read₁ read₁' : Of ε β α} {next : α → Of ε β γ}

theorem andThen_eq_ok {input rest : List β} {c : γ}
    (h : andThen read next input = .ok (c, rest)) :
    ∃ a left, read input = .ok (a, left) ∧ next a left = .ok (c, rest) := by
  unfold andThen at h
  cases hfirst : read input with
  | error e =>
      rw [hfirst] at h
      cases h
  | ok p =>
      rw [hfirst] at h
      exact ⟨p.1, p.2, rfl, h⟩

-- == reading

theorem Reads.pure (a : α) :
    Reads (fun bs : List β => (.ok (a, bs) : Except ε _)) [] a :=
  fun _ => rfl

theorem Reads.andThen {xs ys : List β} {a : α} {c : γ}
    (h : Reads read xs a) (hnext : Reads (next a) ys c) :
    Reads (andThen read next) (xs ++ ys) c := by
  intro rest
  unfold Reader.andThen
  rw [List.append_assoc, h]
  exact hnext rest

/-- What is read is made into something. -/
theorem Reads.map {xs : List β} {a : α} (f : α → γ) (h : Reads read xs a) :
    Reads (Reader.map f read) xs (f a) := by
  have hnil : Reads (fun rest : List β => (.ok (f a, rest) : Except ε _)) []
      (f a) := Reads.pure (f a)
  have hreads : Reads (Reader.map f read) (xs ++ []) (f a) := h.andThen hnil
  rwa [List.append_nil] at hreads

-- == lifting

namespace Lifts

variable {R : (α : Type) → Of ε β α → Of ε β α → Prop} (hR : Lifts R)

include hR

theorem map (f : α → γ) (h : R α read read') :
    R γ (Reader.map f read) (Reader.map f read') :=
  hR.andThen h fun a => hR.pure (f a)

omit hR in
/-- It does not matter which of two readers it is where they are chosen
alike. -/
theorem ite {p : Prop} [Decidable p] (h : R α read read')
    (h₁ : R α read₁ read₁') :
    R α (fun bs => if p then read bs else read₁ bs)
      fun bs => if p then read' bs else read₁' bs := by
  by_cases hp : p
  · simp only [if_pos hp]
    exact h
  · simp only [if_neg hp]
    exact h₁

end Lifts

theorem extends_lifts : Lifts (Extends (ε := ε) (β := β)) where
  pure a := by
    rintro input b rest ⟨⟩ more
    rfl
  error e := by rintro input a rest ⟨⟩
  andThen {α γ read read' next next'} h hnext := by
    intro input c rest hread more
    unfold Reader.andThen at hread ⊢
    cases hfirst : read input with
    | error e =>
        rw [hfirst] at hread
        cases hread
    | ok p =>
        rw [hfirst] at hread
        rw [h input p.1 p.2 hfirst more]
        exact hnext p.1 p.2 c rest hread more

theorem agree_lifts (n : Nat) : Lifts (Agree (ε := ε) (β := β) n) where
  pure a := by
    refine fun input _ => ⟨rfl, ?_⟩
    rintro b rest ⟨⟩
    exact Nat.le_refl _
  error e := by
    refine fun input _ => ⟨rfl, ?_⟩
    rintro b rest ⟨⟩
  andThen {α γ read read' next next'} h hnext := by
    intro input hinput
    obtain ⟨hsame, hless⟩ := h input hinput
    unfold Reader.andThen
    rw [hsame]
    cases hfirst : read input with
    | error e =>
        refine ⟨rfl, ?_⟩
        rintro c rest ⟨⟩
    | ok p =>
        have hp := hless p.1 p.2 hfirst
        obtain ⟨hsame', hless'⟩ := hnext p.1 p.2 (Nat.le_trans hp hinput)
        refine ⟨hsame', fun c rest hread => ?_⟩
        exact Nat.le_trans (hless' c rest hread) hp

end Reader
