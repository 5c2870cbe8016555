/-
zmax-view/src/document.rs, `glob_match`: the glob patterns of
`backupskip`.

The indices `pi`, `ti` and `star_t` of the source are here the parts of
the pattern and of the text that start at them. The loop is given a bound
on its turns (`Panic.diverges` beyond it), which is shown to be enough.

What `glob_match` accepts.

The loop looks whether the char of the pattern is that of the text before
it looks whether it is a star, so a star that stands at a `*` of the text
takes just that char, and is not remembered. `Literally` are the matches
of this kind, and `Matches` those that a glob pattern means.

Remembering one star is enough for them (`lags`): since a star was
remembered the loop has gone through pattern and text char by char, and
if that star takes more, everything behind it comes later in the text
than it did.
-/
import Zmax.Basic

namespace Zmax.Glob

/-- Where the loop stands. -/
structure State where
  /-- The pattern from `pi` on. -/
  pattern : List Char
  /-- The text from `ti` on. -/
  text : List Char
  /-- Backtrack point for the most recent `*`: the pattern behind it, and
  the text from `star_t` on. -/
  star : Option (List Char × List Char)
  deriving DecidableEq, Repr

/-- Mismatch: let the last `*` swallow one more character and retry;
nothing without one. -/
def State.backtrack (self : State) : Option State :=
  match self.star with
  | some (pattern, text) =>
      some ⟨pattern, text.tail, some (pattern, text.tail)⟩
  | none => none

/-- A turn of the loop at a text that is not at its end; nothing when it
returns false. -/
def State.step (self : State) : Option State :=
  match self.pattern, self.text with
  | x :: pattern, c :: text =>
      if x = '?' ∨ x = c then some { self with pattern, text }
      else if x = '*' then
        some ⟨pattern, c :: text, some (pattern, c :: text)⟩
      else self.backtrack
  | _, _ => self.backtrack

/-- The loop, and the stars left over in the pattern behind it. -/
def globLoop : Nat → State → Result Bool
  | 0, _ => .error .diverges
  | fuel + 1, s =>
      if s.text.isEmpty then .ok (s.pattern.dropWhile (· == '*')).isEmpty
      else
        match s.step with
        | some s => globLoop fuel s
        | none => .ok false

/-- Minimal shell-style glob match supporting `*` (any run, including
empty) and `?` (exactly one character); every other character is
literal. -/
def globMatch (pattern text : List Char) : Result Bool :=
  globLoop ((text.length + 1) * (text.length + pattern.length + 1)
    + text.length + pattern.length + 1) ⟨pattern, text, none⟩

attribute [grind =] globLoop

-- == the meaning

/-- The text matches the pattern: `*` stands for any run of chars, `?`
for one char, everything else for itself. -/
inductive Matches : List Char → List Char → Prop
  | nil : Matches [] []
  /-- A star takes `n` chars. -/
  | star {p t : List Char} (n : Nat) (h : Matches p (t.drop n)) :
      Matches ('*' :: p) t
  | char {p t : List Char} {x c : Char} (hx : x ≠ '*')
      (hc : x = '?' ∨ x = c) (h : Matches p t) : Matches (x :: p) (c :: t)

/-- The text matches the pattern, and a star that stands at a `*` of the
text takes just that char. -/
inductive Literally : List Char → List Char → Prop
  | nil : Literally [] []
  | star {p t : List Char} (n : Nat) (ht : t.head? ≠ some '*')
      (h : Literally p (t.drop n)) : Literally ('*' :: p) t
  | itself {p t : List Char} (h : Literally p t) :
      Literally ('*' :: p) ('*' :: t)
  | char {p t : List Char} {x c : Char} (hx : x ≠ '*')
      (hc : x = '?' ∨ x = c) (h : Literally p t) :
      Literally (x :: p) (c :: t)

theorem Literally.matches {p t : List Char} (h : Literally p t) :
    Matches p t := by
  induction h with
  | nil => exact .nil
  | star n _ _ ih => exact .star n ih
  | itself _ ih => exact .star 1 ih
  | char hx hc _ ih => exact .char hx hc ih

/-- In a text without a `*` no star stands at one. -/
theorem Matches.literally {p t : List Char} (h : Matches p t)
    (ht : '*' ∉ t) : Literally p t := by
  induction h with
  | nil => exact .nil
  | star n _ ih =>
      refine .star n (fun hhead => ?_) (ih fun hmem => ?_)
      · exact ht (List.mem_of_mem_head? hhead)
      · exact ht (List.mem_of_mem_drop hmem)
  | char hx hc _ ih =>
      exact .char hx hc (ih fun hmem => ht (List.mem_cons_of_mem _ hmem))

-- == char by char

/-- The char of the pattern is taken for that of the text. -/
def Same (x c : Char) : Prop := x = '?' ∨ x = c

variable {p t : List Char} {x c : Char}

theorem literally_cons_iff (h : Same x c) :
    Literally (x :: p) (c :: t) ↔ Literally p t := by
  constructor
  · intro hl
    cases hl with
    | star n ht _ =>
        rcases h with h | h
        · exact absurd h (by decide)
        · exact absurd (by rw [← h]; rfl) ht
    | itself h => exact h
    | char _ _ h => exact h
  · intro hl
    by_cases hx : x = '*'
    · subst hx
      rcases h with h | h
      · exact absurd h (by decide)
      · subst h
        exact .itself hl
    · exact .char hx h hl

/-- A star at any other char takes any run. -/
theorem literally_star_iff (hc : c ≠ '*') :
    Literally ('*' :: p) (c :: t) ↔ ∃ n, Literally p ((c :: t).drop n) := by
  constructor
  · intro hl
    cases hl with
    | star n _ h => exact ⟨n, h⟩
    | itself _ => exact absurd rfl hc
    | char hx _ _ => exact absurd rfl hx
  · rintro ⟨n, h⟩
    exact .star n (by simpa using hc) h

/-- Neither a star nor the char itself. -/
theorem not_literally_cons (h : ¬ Same x c) (hx : x ≠ '*') :
    ¬ Literally (x :: p) (c :: t) := by
  intro hl
  cases hl with
  | star => exact hx rfl
  | itself => exact hx rfl
  | char _ hc _ => exact h hc

/-- Whatever a star takes, the pattern behind it matches further back. -/
theorem Literally.drop_star (h : Literally ('*' :: p) t) :
    ∃ n, Literally p (t.drop n) := by
  cases h with
  | star n _ h => exact ⟨n, h⟩
  | itself h => exact ⟨1, h⟩
  | char hx _ _ => exact absurd rfl hx

/-- At the end of the text only stars are left. -/
theorem literally_nil_iff :
    Literally p [] ↔ (p.dropWhile (· == '*')).isEmpty := by
  induction p with
  | nil => exact ⟨fun _ => rfl, fun _ => .nil⟩
  | cons x p ih =>
      by_cases hx : x = '*'
      · subst hx
        rw [List.dropWhile_cons_of_pos (by rfl), ← ih]
        constructor
        · intro h
          obtain ⟨n, h⟩ := h.drop_star
          rwa [List.drop_nil] at h
        · intro h
          exact .star 0 (by simp) h
      · rw [List.dropWhile_cons_of_neg (by simpa using hx)]
        constructor
        · intro h
          cases h with
          | star => exact absurd rfl hx
        · intro h
          cases h

/-- Behind chars that were gone through one by one, the pattern matches no
earlier than it stands, if they match further back. -/
theorem lags {front chars : List Char} (h : List.Forall₂ Same front chars)
    {n : Nat} (hl : Literally (front ++ p) ((chars ++ t).drop n)) :
    ∃ m, Literally p (t.drop m) := by
  induction h generalizing n with
  | nil => exact ⟨n, hl⟩
  | @cons x c front chars hxc _ ih =>
      rw [List.cons_append, List.cons_append] at hl
      cases n with
      | zero => exact ih (n := 0) ((literally_cons_iff hxc).mp hl)
      | succ n =>
          rw [List.drop_succ_cons] at hl
          by_cases hx : x = '*'
          · subst hx
            obtain ⟨k, hk⟩ := hl.drop_star
            rw [List.drop_drop] at hk
            exact ih hk
          · generalize hrest : (chars ++ t).drop n = rest at hl
            cases hl with
            | star => exact absurd rfl hx
            | itself => exact absurd rfl hx
            | @char _ rest' _ c' _ _ h =>
                refine ih (n := n + 1) ?_
                rwa [← List.tail_drop, hrest]

-- == the loop

namespace State

/-- What is left matches, or does when the remembered star takes more
chars than it has. -/
def Accepts (s : State) : Prop :=
  Literally s.pattern s.text
    ∨ ∃ star ∈ s.star, ∃ n, Literally star.1 (star.2.drop (n + 1))

/-- Since a star was remembered, pattern and text were gone through char
by char. -/
def Abreast (s : State) : Prop :=
  ∀ star ∈ s.star, ∃ front chars, List.Forall₂ Same front chars
    ∧ star.1 = front ++ s.pattern ∧ star.2 = chars ++ s.text

/-- The turns left, at most: `l` and `m` bound the pattern and the
text. -/
def turns (l m : Nat) (s : State) : Nat :=
  (match s.star with
    | some (_, text) => text.length
    | none => m + 1) * (m + l + 1) + s.text.length + s.pattern.length

/-- Nothing is longer than it was at the start. -/
structure Bounded (l m : Nat) (s : State) : Prop where
  pattern : s.pattern.length ≤ l
  text : s.text.length ≤ m
  star : ∀ star ∈ s.star, star.1.length ≤ l ∧ star.2.length ≤ m

variable {s s' : State} {l m : Nat}

/-- Where the remembered star leads to, what is left leads to as well. -/
theorem Abreast.lags (h : s.Abreast) {star : List Char × List Char}
    (hstar : star ∈ s.star) {n : Nat}
    (hl : Literally star.1 (star.2.drop n)) :
    ∃ k, Literally s.pattern (s.text.drop k) := by
  obtain ⟨front, chars, hsame, hp, ht⟩ := h star hstar
  rw [hp, ht] at hl
  exact Glob.lags hsame hl

theorem accepts_nil (h : s.Abreast) (hs : s.text = []) :
    s.Accepts ↔ Literally s.pattern [] := by
  constructor
  · rintro (hl | ⟨star, hstar, n, hl⟩)
    · rwa [hs] at hl
    · obtain ⟨k, hk⟩ := h.lags hstar hl
      rwa [hs, List.drop_nil] at hk
  · intro hl
    exact .inl (by rwa [hs])

/-- A turn that ends the loop has nothing left to try, and one that goes
on keeps what is accepted. -/
structure Turn (l m : Nat) (s : State) : Prop where
  stop : s.step = none → ¬ s.Accepts
  go : ∀ s', s.step = some s' → s'.Abreast ∧ s'.Bounded l m
    ∧ (s'.Accepts ↔ s.Accepts) ∧ s'.turns l m < s.turns l m

/-- A mismatch leaves what the remembered star may still take. -/
theorem turn_backtrack (h : s.Abreast) (hb : s.Bounded l m)
    (ht : s.text ≠ []) (hl : ¬ Literally s.pattern s.text)
    (hstep : s.step = s.backtrack) : Turn l m s := by
  constructor
  · intro hnone hacc
    rcases hacc with hlit | ⟨star, hstar, -⟩
    · exact hl hlit
    · rw [hstep, backtrack, Option.mem_def.mp hstar] at hnone
      cases hnone
  · intro s' hs'
    rw [hstep] at hs'
    unfold backtrack at hs'
    split at hs'
    · next pattern text hstar =>
        injection hs' with hs'
        subst hs'
        obtain ⟨hpl, htl⟩ := hb.star _ hstar
        obtain ⟨front, chars, -, -, htext⟩ := h _ hstar
        dsimp only at hpl htl htext
        have hpos : 0 < text.length := by
          rw [htext, List.length_append]
          have := List.length_pos_of_ne_nil ht
          omega
        refine ⟨?_, ⟨hpl, ?_, ?_⟩, ?_, ?_⟩
        · rintro star hmem
          injection hmem with hmem
          subst hmem
          exact ⟨[], [], .nil, rfl, rfl⟩
        · rw [List.length_tail]
          omega
        · rintro star hmem
          injection hmem with hmem
          subst hmem
          dsimp only
          rw [List.length_tail]
          exact ⟨hpl, by omega⟩
        · constructor
          · rintro (hlit | ⟨star, hmem, n, hlit⟩)
            · refine .inr ⟨_, hstar, 0, ?_⟩
              rwa [List.drop_one]
            · injection hmem with hmem
              subst hmem
              refine .inr ⟨_, hstar, n + 1, ?_⟩
              rwa [List.drop_tail] at hlit
          · rintro (hlit | ⟨star, hmem, n, hlit⟩)
            · exact absurd hlit hl
            · rw [hstar] at hmem
              injection hmem with hmem
              subst hmem
              cases n with
              | zero =>
                  left
                  rwa [List.drop_one] at hlit
              | succ n =>
                  refine .inr ⟨_, rfl, n, ?_⟩
                  rwa [List.drop_tail]
        · unfold turns
          rw [hstar]
          dsimp only
          rw [List.length_tail]
          obtain ⟨k, hk⟩ : ∃ k, text.length = k + 1 :=
            ⟨text.length - 1, by omega⟩
          rw [hk, Nat.add_sub_cancel, Nat.succ_mul]
          omega
    · cases hs'

/-- A char of the text is gone through. -/
theorem turn_same (h : s.Abreast) (hb : s.Bounded l m)
    (hp : s.pattern = x :: p) (ht : s.text = c :: t) (hxc : Same x c) :
    Turn l m s := by
  have hstep : s.step = some ⟨p, t, s.star⟩ := by
    unfold step
    rw [hp, ht]
    exact if_pos hxc
  constructor
  · intro hnone
    rw [hstep] at hnone
    cases hnone
  · intro s' hs'
    rw [hstep] at hs'
    injection hs' with hs'
    subst hs'
    refine ⟨?_, ⟨?_, ?_, hb.star⟩, ?_, ?_⟩
    · intro star hstar
      obtain ⟨front, chars, hsame, hpattern, htext⟩ := h star hstar
      refine ⟨front ++ [x], chars ++ [c],
        List.rel_append hsame (.cons hxc .nil), ?_, ?_⟩
      · rw [hpattern, hp, List.append_assoc]
        rfl
      · rw [htext, ht, List.append_assoc]
        rfl
    · have := hb.pattern
      rw [hp, List.length_cons] at this
      exact Nat.le_of_succ_le this
    · have := hb.text
      rw [ht, List.length_cons] at this
      exact Nat.le_of_succ_le this
    · unfold Accepts
      rw [hp, ht, literally_cons_iff hxc]
    · unfold turns
      rw [hp, ht, List.length_cons, List.length_cons]
      dsimp only
      omega

/-- A star is remembered in place of the one before it. -/
theorem turn_star (h : s.Abreast) (hb : s.Bounded l m)
    (hp : s.pattern = '*' :: p) (ht : s.text = c :: t) (hc : ¬ Same '*' c) :
    Turn l m s := by
  have hne : c ≠ '*' := fun heq => hc (.inr heq.symm)
  have hstep : s.step = some ⟨p, s.text, some (p, s.text)⟩ := by
    unfold step
    rw [hp, ht]
    exact (if_neg hc).trans (if_pos rfl)
  have hpl : p.length + 1 ≤ l := by
    have := hb.pattern
    rwa [hp, List.length_cons] at this
  have htl := hb.text
  -- what the star takes, nothing included
  have hrun : Literally s.pattern s.text
      ↔ ∃ n, Literally p (s.text.drop n) := by
    rw [hp, ht]
    exact literally_star_iff hne
  constructor
  · intro hnone
    rw [hstep] at hnone
    cases hnone
  · intro s' hs'
    rw [hstep] at hs'
    injection hs' with hs'
    subst hs'
    refine ⟨?_, ⟨Nat.le_of_succ_le hpl, htl, ?_⟩, ?_, ?_⟩
    · intro star hmem
      injection hmem with hmem
      subst hmem
      exact ⟨[], [], .nil, rfl, rfl⟩
    · intro star hmem
      injection hmem with hmem
      subst hmem
      exact ⟨Nat.le_of_succ_le hpl, htl⟩
    · have hnew : Accepts ⟨p, s.text, some (p, s.text)⟩
          ↔ ∃ n, Literally p (s.text.drop n) := by
        constructor
        · rintro (hlit | ⟨star, hmem, n, hlit⟩)
          · exact ⟨0, hlit⟩
          · injection hmem with hmem
            subst hmem
            exact ⟨n + 1, hlit⟩
        · rintro ⟨n, hlit⟩
          cases n with
          | zero => exact .inl hlit
          | succ n => exact .inr ⟨_, rfl, n, hlit⟩
      rw [hnew]
      constructor
      · intro hlit
        exact .inl (hrun.mpr hlit)
      · rintro (hlit | ⟨star, hmem, n, hlit⟩)
        · exact hrun.mp hlit
        · obtain ⟨k, hk⟩ := h.lags hmem hlit
          rw [hp] at hk
          obtain ⟨j, hj⟩ := hk.drop_star
          rw [List.drop_drop] at hj
          exact ⟨_, hj⟩
    · unfold turns
      rw [hp, List.length_cons]
      dsimp only
      have hle : s.text.length ≤ (match s.star with
          | some (_, text) => text.length
          | none => m + 1) := by
        split
        · next pattern text hstar =>
            obtain ⟨front, chars, -, -, htext⟩ := h _ hstar
            dsimp only at htext
            rw [htext, List.length_append]
            exact Nat.le_add_left _ _
        · exact Nat.le_succ_of_le htl
      have := Nat.mul_le_mul_right (m + l + 1) hle
      omega

/-- A turn of the loop. -/
theorem turn (h : s.Abreast) (hb : s.Bounded l m) (ht : s.text ≠ []) :
    Turn l m s := by
  obtain ⟨c, t, htext⟩ := List.exists_cons_of_ne_nil ht
  cases hp : s.pattern with
  | nil =>
      refine turn_backtrack h hb ht ?_ ?_
      · rw [hp, htext]
        intro hl
        cases hl
      · unfold step
        rw [hp]
  | cons x p =>
      by_cases hxc : Same x c
      · exact turn_same h hb hp htext hxc
      · by_cases hx : x = '*'
        · subst hx
          exact turn_star h hb hp htext hxc
        · refine turn_backtrack h hb ht ?_ ?_
          · rw [hp, htext]
            exact not_literally_cons hxc hx
          · unfold step
            rw [hp, htext]
            exact (if_neg hxc).trans (if_neg hx)

end State

/-- The loop ends in time, with what the state accepts. -/
theorem globLoop_spec {l m : Nat} : ∀ {fuel : Nat} {s : State},
    s.Abreast → s.Bounded l m → s.turns l m < fuel →
      ∃ b, globLoop fuel s = .ok b ∧ (b = true ↔ s.Accepts) := by
  intro fuel
  induction fuel with
  | zero => exact fun _ _ h => absurd h (Nat.not_lt_zero _)
  | succ fuel ih =>
      intro s h hb hturns
      rw [globLoop]
      by_cases ht : s.text = []
      · rw [if_pos (List.isEmpty_iff.mpr ht)]
        refine ⟨_, rfl, ?_⟩
        rw [State.accepts_nil h ht, literally_nil_iff]
      · rw [if_neg (by rwa [List.isEmpty_iff])]
        obtain ⟨hstop, hgo⟩ := State.turn h hb ht
        cases hstep : s.step with
        | none => exact ⟨false, rfl, by simpa using hstop hstep⟩
        | some s' =>
            obtain ⟨h', hb', hacc, hlt⟩ := hgo s' hstep
            obtain ⟨b, hloop, hb⟩ := ih h' hb' (by omega)
            exact ⟨b, hloop, hb.trans hacc⟩

/-- `glob_match` accepts the texts that match with every star at a `*`
taking just that. -/
theorem globMatch_spec (pattern text : List Char) :
    ∃ b, globMatch pattern text = .ok b
      ∧ (b = true ↔ Literally pattern text) := by
  have h : State.Abreast ⟨pattern, text, none⟩ := fun _ h => by cases h
  have hb : State.Bounded pattern.length text.length
      ⟨pattern, text, none⟩ :=
    ⟨Nat.le_refl _, Nat.le_refl _, fun _ h => by cases h⟩
  obtain ⟨b, hloop, hacc⟩ := globLoop_spec h hb (Nat.lt_succ_self _)
  refine ⟨b, hloop, hacc.trans ⟨?_, .inl⟩⟩
  rintro (hlit | ⟨_, hmem, _⟩)
  · exact hlit
  · cases hmem

-- == the law

/-- `glob_match` ends, and accepts what matches if and only if a text that
matches at all matches with every star at a `*` of the text taking just
that; as any text without a `*` does. -/
theorem glob_match_law (pattern text : List Char) :
    ∃ b, globMatch pattern text = .ok b
      ∧ ((b = true ↔ Matches pattern text)
        ↔ (Matches pattern text → Literally pattern text))
      ∧ ('*' ∉ text → (b = true ↔ Matches pattern text)) := by
  obtain ⟨b, hloop, hb⟩ := globMatch_spec pattern text
  refine ⟨b, hloop, ⟨?_, ?_⟩, ?_⟩
  · intro hright hm
    exact hb.mp (hright.mpr hm)
  · intro hlit
    exact hb.trans ⟨Literally.matches, hlit⟩
  · intro ht
    exact hb.trans ⟨Literally.matches, fun hm => hm.literally ht⟩

/-- A lone star does not match a text that starts with one. -/
theorem not_glob_match_law_star :
    globMatch ['*'] ['*', 'a'] = .ok false ∧ Matches ['*'] ['*', 'a'] :=
  ⟨rfl, .star 2 .nil⟩

end Zmax.Glob
