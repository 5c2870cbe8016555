/-
zmax-parsec/src/lib.rs: parser combinators.

A parser hands on what it has not read, which is a tail of its input. What
is read in a loop is read by `nonEmpty`, which fails where nothing is
read; with the tails this makes the loops end.

`seq!` is nested here: each way, where one part fails all of it fails with
the whole input.
-/
import Zmax.Basic

namespace Zmax.Parsec

/-- The input that is left and a value, else the input. -/
abbrev ParseResult (α : Type) := Except Tendril (Tendril × α)

structure Parser (α : Type) where
  parse : Tendril → ParseResult α
  tail : ∀ {input next : Tendril} {value : α},
    parse input = .ok (next, value) → next <:+ input

variable {α β : Type}

-- == parsers

/-- A parser that matches a text literally. -/
def token (literal : Tendril) : Parser Tendril where
  parse := fun input =>
    if literal.isPrefixOf input then
      .ok (input.drop literal.length, literal)
    else .error input
  tail := fun {input} _ _ h => by
    split at h
    · injection h with h
      injection h with h _
      exact h ▸ List.drop_suffix _ input
    · cases h

/-- Matches all chars up to one that the pattern does not match, and at
least one. -/
def takeWhile (pattern : Char → Bool) : Parser Tendril where
  parse := fun input =>
    match input.takeWhile pattern with
    | [] => .error input
    | c :: cs => .ok (input.dropWhile pattern, c :: cs)
  tail := fun {input} _ _ h => by
    split at h
    · cases h
    · injection h with h
      injection h with h _
      exact h ▸ List.dropWhile_suffix _

-- == combinators

def map (parser : Parser α) (mapFn : α → β) : Parser β where
  parse := fun input =>
    match parser.parse input with
    | .ok (next, result) => .ok (next, mapFn result)
    | .error rest => .error rest
  tail := fun {input} _ _ h => by
    split at h
    · next hp =>
        injection h with h
        injection h with h _
        exact h ▸ parser.tail hp
    · cases h

def filterMap (parser : Parser α) (filterMapFn : α → Option β) :
    Parser β where
  parse := fun input =>
    match parser.parse input with
    | .ok (next, value) =>
        match filterMapFn value with
        | some value => .ok (next, value)
        | none => .error input
    | .error _ => .error input
  tail := fun {input} _ _ h => by
    split at h
    · next hp =>
        split at h
        · injection h with h
          injection h with h _
          exact h ▸ parser.tail hp
        · cases h
    · cases h

/-- `seq!` of two. -/
def seq (left : Parser α) (right : Parser β) : Parser (α × β) where
  parse := fun input =>
    match left.parse input with
    | .ok (next, l) =>
        match right.parse next with
        | .ok (next, r) => .ok (next, (l, r))
        | .error _ => .error input
    | .error _ => .error input
  tail := fun {input} _ _ h => by
    split at h
    · next hl =>
        split at h
        · next hr =>
            injection h with h
            injection h with h _
            exact h ▸ (right.tail hr).trans (left.tail hl)
        · cases h
    · cases h

def right (left : Parser α) (right : Parser β) : Parser β :=
  map (seq left right) Prod.snd

/-- Tries the second parser where the first one fails. -/
def or (parser₁ parser₂ : Parser α) : Parser α where
  parse := fun input =>
    match parser₁.parse input with
    | .ok result => .ok result
    | .error _ => parser₂.parse input
  tail := fun {input} _ _ h => by
    split at h
    · next h₁ =>
        injection h with h
        exact parser₁.tail (h ▸ h₁)
    · exact parser₂.tail h

def optional (parser : Parser α) : Parser (Option α) where
  parse := fun input =>
    match parser.parse input with
    | .ok (next, value) => .ok (next, some value)
    | .error _ => .ok (input, none)
  tail := fun {input} _ _ h => by
    split at h
    · next hp =>
        injection h with h
        injection h with h _
        exact h ▸ parser.tail hp
    · injection h with h
      injection h with h _
      exact h ▸ List.suffix_rfl

/-- Fails where nothing is read. -/
def nonEmpty (parser : Parser α) : Parser α where
  parse := fun input =>
    match parser.parse input with
    | .ok (next, value) =>
        if next.length = input.length then .error input
        else .ok (next, value)
    | .error rest => .error rest
  tail := fun {input} _ _ h => by
    split at h
    · next hp =>
        split at h
        · cases h
        · injection h with h
          injection h with h _
          exact h ▸ parser.tail hp
    · cases h

variable {input next rest : Tendril} {parser : Parser α} {value : α}
  {separator : Char}

theorem nonEmpty_length_lt
    (h : (nonEmpty parser).parse input = .ok (next, value)) :
    next.length < input.length := by
  have hle := ((nonEmpty parser).tail h).length_le
  unfold nonEmpty at h
  dsimp only at h
  split at h
  · split at h
    · cases h
    · next hne =>
        injection h with h
        injection h with h _
        exact Nat.lt_of_le_of_ne hle (h ▸ hne)
  · cases h

/-- The loop of `zero_or_more` and `one_or_more`. -/
def many (parser : Parser α) (input : Tendril) : Tendril × List α :=
  match _h : (nonEmpty parser).parse input with
  | .ok (next, value) =>
      let (rest, values) := many parser next
      (rest, value :: values)
  | .error _ => (input, [])
termination_by input.length
decreasing_by exact nonEmpty_length_lt _h

attribute [grind =] many

theorem many_of_ok (h : (nonEmpty parser).parse input = .ok (next, value)) :
    many parser input
      = ((many parser next).1, value :: (many parser next).2) := by
  rw [many]
  split
  · next h' =>
      injection h.symm.trans h' with heq
      injection heq with hnext hvalue
      rw [hnext, hvalue]
  · next h' => cases h.symm.trans h'

theorem many_of_error (h : (nonEmpty parser).parse input = .error rest) :
    many parser input = (input, []) := by
  rw [many]
  split
  · next h' => cases h.symm.trans h'
  · rfl

theorem many_suffix (parser : Parser α) (input : Tendril) :
    (many parser input).1 <:+ input := by
  cases h : (nonEmpty parser).parse input with
  | ok result =>
      obtain ⟨next, value⟩ := result
      rw [many_of_ok h]
      exact (many_suffix parser next).trans ((nonEmpty parser).tail h)
  | error rest => simp only [many_of_error h, List.suffix_rfl]
termination_by input.length
decreasing_by exact nonEmpty_length_lt h

def zeroOrMore (parser : Parser α) : Parser (List α) where
  parse := fun input => .ok (many parser input)
  tail := fun {input next} _ h => by
    injection h with h
    have hnext : (many parser input).1 = next := congrArg Prod.fst h
    exact hnext ▸ many_suffix parser input

def oneOrMore (parser : Parser α) : Parser (List α) where
  parse := fun input =>
    match (nonEmpty parser).parse input with
    | .ok (next, value) =>
        let (rest, values) := many parser next
        .ok (rest, value :: values)
    | .error rest => .error rest
  tail := fun {input} _ _ h => by
    split at h
    · next hp =>
        injection h with h
        injection h with h _
        exact h ▸ (many_suffix parser _).trans ((nonEmpty parser).tail hp)
    · cases h

/-- The loop of `sep`, whose separator is a char wherever it is used. -/
def sepLoop (parser : Parser α) (separator : Char) (input : Tendril) :
    Tendril × List α :=
  match input with
  | [] => ([], [])
  | c :: next =>
      if c = separator then
        match _h : parser.parse next with
        | .ok (rest, value) =>
            let (rest, values) := sepLoop parser separator rest
            (rest, value :: values)
        | .error _ => (next, [])
      else (c :: next, [])
termination_by input.length
decreasing_by
  exact Nat.lt_succ_of_le (parser.tail _h).length_le

attribute [grind =] sepLoop

theorem sepLoop_of_ok (h : parser.parse next = .ok (rest, value)) :
    sepLoop parser separator (separator :: next)
      = ((sepLoop parser separator rest).1,
        value :: (sepLoop parser separator rest).2) := by
  rw [sepLoop, if_pos rfl]
  split
  · next h' =>
      injection h.symm.trans h' with heq
      injection heq with hrest hvalue
      rw [hrest, hvalue]
  · next h' => cases h.symm.trans h'

theorem sepLoop_of_error (h : parser.parse next = .error rest) :
    sepLoop parser separator (separator :: next) = (next, []) := by
  rw [sepLoop, if_pos rfl]
  split
  · next h' => cases h.symm.trans h'
  · rfl

theorem sepLoop_of_ne {c : Char} (h : c ≠ separator) :
    sepLoop parser separator (c :: next) = (c :: next, []) := by
  rw [sepLoop, if_neg h]

theorem sepLoop_suffix (parser : Parser α) (separator : Char) :
    ∀ input : Tendril, (sepLoop parser separator input).1 <:+ input
  | [] => by simp only [sepLoop, List.suffix_rfl]
  | c :: next => by
      by_cases hc : c = separator
      · subst hc
        cases h : parser.parse next with
        | ok result =>
            obtain ⟨rest, value⟩ := result
            rw [sepLoop_of_ok h]
            exact ((sepLoop_suffix parser c rest).trans
              (parser.tail h)).trans (List.suffix_cons _ _)
        | error rest =>
            rw [sepLoop_of_error h]
            exact List.suffix_cons _ _
      · simp only [sepLoop_of_ne hc, List.suffix_rfl]
termination_by input => input.length
decreasing_by exact Nat.lt_succ_of_le (parser.tail h).length_le

/-- One or more values with a separator in between. -/
def sep (parser : Parser α) (separator : Char) : Parser (List α) where
  parse := fun input =>
    match parser.parse input with
    | .ok (next, value) =>
        let (rest, values) := sepLoop parser separator next
        .ok (rest, value :: values)
    | .error rest => .error rest
  tail := fun {input} _ _ h => by
    split at h
    · next hp =>
        injection h with h
        injection h with h _
        exact h ▸ (sepLoop_suffix parser separator _).trans (parser.tail hp)
    · cases h

-- == readings

section

variable {input next rest : Tendril} {p p' : Parser α} {q q' : Parser β}
  {v : α} {w : β}

/-- The parser fails on the input. -/
def Parser.Fails (parser : Parser α) (input : Tendril) : Prop :=
  ∃ rest, parser.parse input = .error rest

theorem token_append (literal rest : Tendril) :
    (token literal).parse (literal ++ rest) = .ok (rest, literal) := by
  unfold token
  dsimp only
  rw [if_pos (List.isPrefixOf_iff_prefix.mpr (List.prefix_append _ _)),
    List.drop_left]

theorem token_fails {c : Char} {literal : Tendril}
    (h : ∀ d ∈ input.head?, d ≠ c) : (token (c :: literal)).Fails input := by
  refine ⟨input, ?_⟩
  unfold token
  dsimp only
  rw [if_neg]
  rw [List.isPrefixOf_iff_prefix]
  intro hprefix
  cases input with
  | nil => exact absurd hprefix.length_le (Nat.not_succ_le_zero _)
  | cons d cs => exact h d rfl (List.cons_prefix_cons.mp hprefix).1.symm

theorem map_ok (f : α → β) (h : p.parse input = .ok (next, v)) :
    (map p f).parse input = .ok (next, f v) := by
  unfold map
  dsimp only
  rw [h]

theorem map_fails (f : α → β) (h : p.Fails input) :
    (map p f).Fails input := by
  obtain ⟨rest, h⟩ := h
  refine ⟨rest, ?_⟩
  unfold map
  dsimp only
  rw [h]

theorem seq_ok (hp : p.parse input = .ok (next, v))
    (hq : q.parse next = .ok (rest, w)) :
    (seq p q).parse input = .ok (rest, (v, w)) := by
  unfold seq
  dsimp only
  rw [hp]
  dsimp only
  rw [hq]

theorem seq_fails_left (q : Parser β) (h : p.Fails input) :
    (seq p q).Fails input := by
  obtain ⟨rest, h⟩ := h
  refine ⟨input, ?_⟩
  unfold seq
  dsimp only
  rw [h]

theorem seq_fails_right (hp : p.parse input = .ok (next, v))
    (hq : q.Fails next) : (seq p q).Fails input := by
  obtain ⟨rest, hq⟩ := hq
  refine ⟨input, ?_⟩
  unfold seq
  dsimp only
  rw [hp]
  dsimp only
  rw [hq]

theorem or_ok (p' : Parser α) (h : p.parse input = .ok (next, v)) :
    (or p p').parse input = .ok (next, v) := by
  unfold or
  dsimp only
  rw [h]

theorem or_right (h : p.Fails input) :
    (or p p').parse input = p'.parse input := by
  obtain ⟨rest, h⟩ := h
  unfold or
  dsimp only
  rw [h]

theorem or_fails (h : p.Fails input) (h' : p'.Fails input) :
    (or p p').Fails input := by
  obtain ⟨rest, h'⟩ := h'
  exact ⟨rest, (or_right h).trans h'⟩

theorem optional_none (h : p.Fails input) :
    (optional p).parse input = .ok (input, none) := by
  obtain ⟨rest, h⟩ := h
  unfold optional
  dsimp only
  rw [h]

theorem filterMap_ok {f : α → Option β} (h : p.parse input = .ok (next, v))
    (hf : f v = some w) : (filterMap p f).parse input = .ok (next, w) := by
  unfold filterMap
  dsimp only
  rw [h]
  dsimp only
  rw [hf]

theorem filterMap_fails (f : α → Option β) (h : p.Fails input) :
    (filterMap p f).Fails input := by
  obtain ⟨rest, h⟩ := h
  refine ⟨input, ?_⟩
  unfold filterMap
  dsimp only
  rw [h]

variable {pattern : Char → Bool}

/-- Where what matches a pattern ends. -/
theorem span_append {cs : Tendril} (hall : ∀ c ∈ cs, pattern c)
    (hrest : ∀ c ∈ rest.head?, pattern c = false) :
    (cs ++ rest).takeWhile pattern = cs
      ∧ (cs ++ rest).dropWhile pattern = rest := by
  rw [List.takeWhile_append_of_pos hall, List.dropWhile_append_of_pos hall]
  cases rest with
  | nil => exact ⟨List.append_nil cs, rfl⟩
  | cons c rest =>
      have hc := Bool.eq_false_iff.mp (hrest c rfl)
      rw [List.takeWhile_cons_of_neg hc, List.dropWhile_cons_of_neg hc]
      exact ⟨List.append_nil cs, rfl⟩

theorem takeWhile_append {cs : Tendril} (hcs : cs ≠ [])
    (hall : ∀ c ∈ cs, pattern c)
    (hrest : ∀ c ∈ rest.head?, pattern c = false) :
    (takeWhile pattern).parse (cs ++ rest) = .ok (rest, cs) := by
  obtain ⟨htake, hdrop⟩ := span_append hall hrest
  unfold takeWhile
  dsimp only
  rw [htake, hdrop]
  cases cs with
  | nil => exact absurd rfl hcs
  | cons c cs => rfl

theorem takeWhile_fails (h : ∀ c ∈ input.head?, pattern c = false) :
    (takeWhile pattern).Fails input := by
  refine ⟨input, ?_⟩
  unfold takeWhile
  dsimp only
  cases input with
  | nil => rfl
  | cons c cs => rw [List.takeWhile_cons_of_neg (by simp [h c rfl])]

theorem nonEmpty_ok (h : p.parse input = .ok (next, v))
    (hlt : next.length < input.length) :
    (nonEmpty p).parse input = .ok (next, v) := by
  unfold nonEmpty
  dsimp only
  rw [h]
  dsimp only
  rw [if_neg (Nat.ne_of_lt hlt)]

theorem nonEmpty_fails (h : p.parse input = .ok (next, v))
    (heq : next.length = input.length) : (nonEmpty p).Fails input := by
  refine ⟨input, ?_⟩
  unfold nonEmpty
  dsimp only
  rw [h]
  dsimp only
  rw [if_pos heq]

theorem nonEmpty_congr (h : p.parse input = p'.parse input) :
    (nonEmpty p).parse input = (nonEmpty p').parse input := by
  unfold nonEmpty
  dsimp only
  rw [h]

theorem many_of_fails (h : (nonEmpty p).Fails input) :
    many p input = (input, []) := by
  obtain ⟨rest, h⟩ := h
  exact many_of_error h

end

-- == progress

/-- A parser that reads something wherever it succeeds. -/
def Consumes (p : Parser α) : Prop :=
  ∀ (input next : Tendril) (v : α), p.parse input = .ok (next, v) →
    next.length < input.length

/-- The parser succeeds on the input, and reads something. -/
def Progress (p : Parser α) (input : Tendril) : Prop :=
  ∃ next v, (nonEmpty p).parse input = .ok (next, v)

section

variable {p p' : Parser α} {q : Parser β} {input : Tendril}

theorem consumes_token {literal : Tendril} (hne : literal ≠ []) :
    Consumes (token literal) := by
  intro input next v h
  unfold token at h
  dsimp only at h
  split at h
  · next hprefix =>
      injection h with h
      injection h with h _
      have hle := (List.isPrefixOf_iff_prefix.mp hprefix).length_le
      have hpos := List.length_pos_of_ne_nil hne
      rw [← h, List.length_drop]
      omega
  · cases h

theorem Consumes.seq (h : Consumes p) (q : Parser β) :
    Consumes (seq p q) := by
  intro input next v hseq
  unfold Parsec.seq at hseq
  dsimp only at hseq
  split at hseq
  · next hp =>
      split at hseq
      · next hq =>
          injection hseq with hseq
          injection hseq with hseq _
          exact hseq ▸ Nat.lt_of_le_of_lt (q.tail hq).length_le
            (h _ _ _ hp)
      · cases hseq
  · cases hseq

theorem Consumes.map (h : Consumes p) (f : α → β) : Consumes (map p f) := by
  intro input next v hmap
  unfold Parsec.map at hmap
  dsimp only at hmap
  split at hmap
  · next hp =>
      injection hmap with hmap
      injection hmap with hmap _
      exact hmap ▸ h _ _ _ hp
  · cases hmap

theorem Consumes.or (h : Consumes p) (h' : Consumes p') :
    Consumes (or p p') := by
  intro input next v hor
  unfold Parsec.or at hor
  dsimp only at hor
  split at hor
  · next hp =>
      injection hor with hor
      exact h _ _ _ (hor ▸ hp)
  · exact h' _ _ _ hor

/-- An alternative in front that reads something where it succeeds does no
harm. -/
theorem Progress.or (hp : Consumes p) (h : Progress p' input) :
    Progress (or p p') input := by
  cases hparse : p.parse input with
  | ok result =>
      obtain ⟨next, v⟩ := result
      exact ⟨next, v, nonEmpty_ok (or_ok p' hparse) (hp _ _ _ hparse)⟩
  | error rest =>
      obtain ⟨next, v, hne⟩ := h
      exact ⟨next, v, (nonEmpty_congr (or_right ⟨rest, hparse⟩)).trans hne⟩

/-- With progress on every input all of it is read. -/
theorem many_eq_nil (h : ∀ input, input ≠ [] → Progress p input)
    (input : Tendril) : (many p input).1 = [] := by
  by_cases hne : input = []
  · subst hne
    have hnil := (many_suffix p []).length_le
    exact List.length_eq_zero_iff.mp (Nat.le_zero.mp hnil)
  · obtain ⟨next, v, hp⟩ := h input hne
    rw [many_of_ok hp]
    exact many_eq_nil h next
termination_by input.length
decreasing_by exact nonEmpty_length_lt hp

end

end Zmax.Parsec
