/-
What the modelled code uses of Rust's `str`.

A string is the list of its chars. A `usize` has 64 bits, and parsing one
fails beyond that.
-/
import Mathlib.Data.List.DropRight
import Zmax.Basic
import Zmax.Lib.Utf8

namespace Zmax.Text

def USIZE_MAX : Nat := 0xffffffffffffffff

/-- `char::is_whitespace` -/
def isWhitespace (c : Char) : Bool :=
  9 ≤ c.toNat ∧ c.toNat ≤ 13 ∨ 0x2000 ≤ c.toNat ∧ c.toNat ≤ 0x200a ∨
    c.toNat ∈ [0x20, 0x85, 0xa0, 0x1680, 0x2028, 0x2029, 0x202f, 0x205f, 0x3000]

/-- `split_whitespace` -/
def splitWhitespace (s : List Char) : List (List Char) :=
  (s.splitOnP isWhitespace).filter (· ≠ [])

/-- `trim_end` -/
def trimEnd (s : List Char) : List Char := s.rdropWhile isWhitespace

/-- `trim` -/
def trim (s : List Char) : List Char := trimEnd (s.dropWhile isWhitespace)

/-- `starts_with` -/
def startsWith (s pre : List Char) : Bool := pre.isPrefixOf s

/-- `ends_with` -/
def endsWith (s suf : List Char) : Bool := suf.isSuffixOf s

/-- `strip_prefix` -/
def stripPrefix (s pre : List Char) : Option (List Char) :=
  if pre.isPrefixOf s then some (s.drop pre.length) else none

/-- What is before the first occurrence of a text, and what behind it. -/
def breakAt (pat : List Char) : List Char → Option (List Char × List Char)
  | [] => none
  | c :: s =>
      match stripPrefix (c :: s) pat with
      | some rest => some ([], rest)
      | none => (breakAt pat s).map fun (before, rest) => (c :: before, rest)

/-- `parse::<usize>` -/
def parseUsize (s : List Char) : Option Nat :=
  let digits := (stripPrefix s ['+']).getD s
  if digits ≠ [] ∧ digits.all Char.isDigit then
    let n := Nat.ofDigitChars 10 digits 0
    if n ≤ USIZE_MAX then some n else none
  else none

/-- A line without the `\r` in front of its newline. -/
def stripCr (line : List Char) : List Char :=
  if line.getLast? = some '\r' then line.dropLast else line

/-- `lines`: a last piece that no newline ends is a line unless it is empty,
and keeps a `\r`. -/
def lines (s : List Char) : List (List Char) :=
  let pieces := s.splitOn '\n'
  pieces.dropLast.map stripCr ++ pieces.getLast?.toList.filter (· ≠ [])

/-- `len`, in bytes -/
def byteLen (s : List Char) : Nat := (Utf8.encode s).length

/-- What is in front of a byte, and what is behind it, where the byte is
no part of a char. -/
def splitAtByte : List Char → Nat → Option (List Char × List Char)
  | s, 0 => some ([], s)
  | [], _ + 1 => none
  | c :: s, n + 1 =>
      if c.utf8Size ≤ n + 1 then
        (splitAtByte s (n + 1 - c.utf8Size)).map fun (front, rest) =>
          (c :: front, rest)
      else none

/-- `&s[start..stop]`, in bytes -/
def byteSlice (s : List Char) (start stop : Nat) : Result (List Char) :=
  match splitAtByte s stop with
  | none => .error .outOfBounds
  | some (front, _) =>
      match splitAtByte front start with
      | none => .error .outOfBounds
      | some (_, piece) => .ok piece

-- == lemmas

attribute [grind =] breakAt splitAtByte

@[simp] theorem byteLen_nil : byteLen [] = 0 := rfl

@[simp] theorem byteLen_cons (c : Char) (s : List Char) :
    byteLen (c :: s) = c.utf8Size + byteLen s := by
  rw [byteLen, Utf8.encode_cons, List.length_append,
    String.length_utf8EncodeChar]
  rfl

@[simp] theorem byteLen_append (s t : List Char) :
    byteLen (s ++ t) = byteLen s + byteLen t := by
  rw [byteLen, Utf8.encode_append, List.length_append]
  rfl

variable {rest s pre : List Char} {c : Char}

/-- A byte that is no part of a char cuts a text in two. -/
theorem splitAtByte_eq_some {front : List Char} {n : Nat} :
    splitAtByte s n = some (front, rest) ↔
      s = front ++ rest ∧ byteLen front = n := by
  induction s generalizing front n with
  | nil =>
      cases n with
      | zero =>
          rw [splitAtByte, Option.some_inj, Prod.mk.injEq]
          constructor
          · rintro ⟨rfl, rfl⟩
            exact ⟨rfl, rfl⟩
          · rintro ⟨h, -⟩
            obtain ⟨rfl, rfl⟩ := List.append_eq_nil_iff.mp h.symm
            exact ⟨rfl, rfl⟩
      | succ n =>
          refine ⟨nofun, fun ⟨h, hlen⟩ => ?_⟩
          obtain ⟨rfl, rfl⟩ := List.append_eq_nil_iff.mp h.symm
          cases hlen
  | cons c s ih =>
      have hpos := c.utf8Size_pos
      cases n with
      | zero =>
          rw [splitAtByte, Option.some_inj, Prod.mk.injEq]
          constructor
          · rintro ⟨rfl, rfl⟩
            exact ⟨rfl, rfl⟩
          · rintro ⟨h, hlen⟩
            cases front with
            | nil => exact ⟨rfl, h⟩
            | cons d front =>
                rw [byteLen_cons] at hlen
                have := d.utf8Size_pos
                omega
      | succ n =>
          rw [splitAtByte]
          cases front with
          | nil =>
              refine ⟨fun h => ?_, fun ⟨_, hlen⟩ => nomatch hlen⟩
              split at h
              · obtain ⟨⟨f, r⟩, -, hcons⟩ := Option.map_eq_some_iff.mp h
                cases hcons
              · cases h
          | cons d front =>
              rw [List.cons_append, List.cons.injEq, byteLen_cons]
              constructor
              · intro h
                split at h
                · obtain ⟨⟨f, r⟩, hsplit, hcons⟩ :=
                    Option.map_eq_some_iff.mp h
                  cases hcons
                  obtain ⟨rfl, hlen⟩ := ih.mp hsplit
                  exact ⟨⟨rfl, rfl⟩, by omega⟩
                · cases h
              · rintro ⟨⟨rfl, rfl⟩, hlen⟩
                rw [if_pos (by omega),
                  ih.mpr ⟨rfl, show byteLen front = n + 1 - c.utf8Size by
                    omega⟩]
                rfl

/-- A piece that is cut out of a text. -/
theorem byteSlice_append (front piece rest : List Char) :
    byteSlice (front ++ piece ++ rest) (byteLen front)
      (byteLen front + byteLen piece) = .ok piece := by
  unfold byteSlice
  rw [splitAtByte_eq_some.mpr ⟨rfl, byteLen_append front piece⟩]
  dsimp only
  rw [splitAtByte_eq_some.mpr ⟨rfl, rfl⟩]

theorem byteSlice_eq_ok {piece : List Char} {start stop : Nat} :
    byteSlice s start stop = .ok piece ↔
      ∃ front rest, s = front ++ piece ++ rest ∧ byteLen front = start ∧
        byteLen front + byteLen piece = stop := by
  constructor
  · intro h
    unfold byteSlice at h
    split at h
    · cases h
    · next upTo rest hstop =>
        obtain ⟨rfl, hlen⟩ := splitAtByte_eq_some.mp hstop
        split at h
        · cases h
        · next front piece' hstart =>
            injection h with h
            subst h
            obtain ⟨rfl, hfront⟩ := splitAtByte_eq_some.mp hstart
            refine ⟨front, rest, rfl, hfront, ?_⟩
            rw [← byteLen_append, hlen]
  · rintro ⟨front, rest, rfl, rfl, rfl⟩
    exact byteSlice_append front piece rest

@[simp] theorem stripPrefix_nil (s : List Char) : stripPrefix s [] = some s := by
  simp [stripPrefix]

@[simp] theorem stripPrefix_nil_cons (c : Char) (pre : List Char) :
    stripPrefix [] (c :: pre) = none := by
  simp [stripPrefix]

@[simp] theorem stripPrefix_cons (c d : Char) (s pre : List Char) :
    stripPrefix (d :: s) (c :: pre) =
      if c = d then stripPrefix s pre else none := by
  unfold stripPrefix
  by_cases h : c = d <;> simp [h]

theorem stripPrefix_append (pre s : List Char) :
    stripPrefix (pre ++ s) pre = some s := by
  simp [stripPrefix]

theorem stripPrefix_eq_some :
    stripPrefix s pre = some rest ↔ s = pre ++ rest := by
  unfold stripPrefix
  constructor
  · intro h
    split at h
    · obtain ⟨t, rfl⟩ := List.isPrefixOf_iff_prefix.mp ‹_›
      simpa using h
    · cases h
  · rintro rfl
    simp

theorem startsWith_eq (s pre : List Char) :
    startsWith s pre = (stripPrefix s pre).isSome := by
  unfold startsWith stripPrefix
  cases pre.isPrefixOf s <;> rfl

/-- Whitespace cuts a text in two. -/
theorem splitWhitespace_append {t : List Char} (hc : isWhitespace c = true) :
    splitWhitespace (s ++ c :: t) = splitWhitespace s ++ splitWhitespace t := by
  unfold splitWhitespace
  rw [List.splitOnP_append_cons _ _ hc, List.filter_append]

theorem splitWhitespace_word {word : List Char} (hne : word ≠ [])
    (hword : ∀ d ∈ word, isWhitespace d = false) :
    splitWhitespace word = [word] := by
  unfold splitWhitespace
  rw [List.splitOnP_eq_singleton hword]
  simp [hne]

@[simp] theorem splitWhitespace_nil : splitWhitespace [] = [] := rfl

theorem splitWhitespace_trimEnd (s : List Char) :
    splitWhitespace (trimEnd s) = splitWhitespace s := by
  unfold trimEnd
  induction s using List.reverseRecOn with
  | nil => rfl
  | append_singleton s c ih =>
      rw [List.rdropWhile_concat]
      split
      · rename_i hc
        rw [ih, splitWhitespace_append hc, splitWhitespace_nil,
          List.append_nil]
      · rfl

theorem splitWhitespace_trim (s : List Char) :
    splitWhitespace (trim s) = splitWhitespace s := by
  unfold trim
  rw [splitWhitespace_trimEnd]
  induction s with
  | nil => rfl
  | cons c s ih =>
      rw [List.dropWhile_cons]
      split
      · rename_i hc
        rw [ih, ← List.nil_append (c :: s), splitWhitespace_append hc]
        rfl
      · rfl

theorem breakAt_eq_some {pat : List Char}
    (h : breakAt pat s = some (pre, rest)) : s = pre ++ (pat ++ rest) := by
  induction s generalizing pre with
  | nil => cases h
  | cons c s ih =>
      rw [breakAt] at h
      cases hstrip : stripPrefix (c :: s) pat with
      | some found =>
          rw [hstrip] at h
          cases h
          have hsplit : c :: s = pat ++ rest := stripPrefix_eq_some.mp hstrip
          exact hsplit
      | none =>
          rw [hstrip] at h
          obtain ⟨⟨before, behind⟩, hbreak, heq⟩ := Option.map_eq_some_iff.mp h
          cases heq
          rw [ih hbreak]
          rfl

/-- Text without the first char of the pattern is passed over. -/
theorem breakAt_append {pat : List Char} (h : c ∉ pre) :
    breakAt (c :: pat) (pre ++ (c :: pat ++ s)) = some (pre, s) := by
  induction pre with
  | nil =>
      rw [List.nil_append, List.cons_append, breakAt, ← List.cons_append,
        stripPrefix_append]
  | cons d pre ih =>
      have hne : c ≠ d := fun heq => h (by simp [heq])
      rw [List.cons_append, breakAt, stripPrefix_cons, if_neg hne,
        ih fun hc => h (List.mem_cons_of_mem _ hc)]
      rfl

-- == numbers

theorem isWhitespace_of_isDigit (h : c.isDigit) : isWhitespace c = false := by
  simp only [Char.isDigit, Bool.and_eq_true, decide_eq_true_eq] at h
  obtain ⟨h₁, h₂⟩ := h
  have h₁ : 48 ≤ c.toNat := h₁
  have h₂ : c.toNat ≤ 57 := h₂
  simp only [isWhitespace, List.mem_cons, List.not_mem_nil, or_false,
    decide_eq_false_iff_not]
  omega

theorem parseUsize_digits {n : Nat} (h : n ≤ USIZE_MAX) :
    parseUsize (Nat.toDigits 10 n) = some n := by
  have hdigit : ∀ c ∈ Nat.toDigits 10 n, c.isDigit = true := fun c hc =>
    Nat.isDigit_of_mem_toDigits (by decide) (by decide) hc
  have hplus : stripPrefix (Nat.toDigits 10 n) ['+'] = none := by
    cases hd : Nat.toDigits 10 n with
    | nil => simp
    | cons c s =>
        have := hdigit c (by simp [hd])
        rw [stripPrefix_cons, if_neg]
        rintro rfl
        exact absurd this (by decide)
  unfold parseUsize
  simp only [hplus, Option.getD_none]
  rw [if_pos ⟨Nat.toDigits_ne_nil, List.all_eq_true.mpr hdigit⟩,
    Nat.ofDigitChars_ten_toDigits, if_pos h]

-- == trimming

theorem trim_eq_self_iff :
    trim s = s ↔ s.dropWhile isWhitespace = s ∧ trimEnd s = s := by
  constructor
  · intro h
    have hsuf : s.dropWhile isWhitespace <:+ s := List.dropWhile_suffix _
    have hpre : trim s <+: s.dropWhile isWhitespace :=
      List.rdropWhile_prefix _ _
    have hlen := hpre.length_le
    rw [h] at hlen
    have hdrop : s.dropWhile isWhitespace = s :=
      hsuf.eq_of_length (Nat.le_antisymm hsuf.length_le hlen)
    refine ⟨hdrop, ?_⟩
    rw [trim, hdrop] at h
    exact h
  · rintro ⟨hdrop, hend⟩
    rw [trim, hdrop, hend]

theorem trim_trim (s : List Char) : trim (trim s) = trim s := by
  refine trim_eq_self_iff.mpr ⟨?_, List.rdropWhile_idempotent _ _⟩
  have hpre : trim s <+: s.dropWhile isWhitespace :=
    List.rdropWhile_prefix _ _
  have hhead := List.head?_dropWhile_not isWhitespace s
  cases ht : trim s with
  | nil => rfl
  | cons c t =>
      obtain ⟨u, hu⟩ := hpre
      rw [← hu, ht] at hhead
      rw [List.dropWhile_cons_of_neg (by simpa using hhead)]

theorem trim_space (v : List Char) : trim (' ' :: v) = trim v := rfl

theorem head_not_whitespace (h : trim (c :: s) = c :: s) :
    isWhitespace c = false := by
  have hdrop := (trim_eq_self_iff.mp h).1
  have hhead := List.head?_dropWhile_not isWhitespace (c :: s)
  rwa [hdrop] at hhead

theorem getLast?_not_whitespace (h : trim s = s) :
    ∀ c, s.getLast? = some c → isWhitespace c = false := by
  intro c hc
  have hend := List.rdropWhile_eq_self_iff.mp (trim_eq_self_iff.mp h).2
  have hne : s ≠ [] := by
    rintro rfl
    cases hc
  rw [List.getLast?_eq_some_getLast hne, Option.some_inj] at hc
  simpa [hc] using hend hne

theorem getLast?_ne_cr (h : trim s = s) : s.getLast? ≠ some '\r' := by
  intro hc
  exact absurd (getLast?_not_whitespace h _ hc) (by decide)

theorem trim_subset (s : List Char) : trim s ⊆ s := by
  intro c hc
  exact (List.dropWhile_sublist _).subset
    ((List.rdropWhile_prefix _ _).subset hc)

-- == words

theorem not_mem_splitOnP {α : Type*} {p : α → Bool} {xs piece : List α}
    (h : piece ∈ xs.splitOnP p) : ∀ x ∈ piece, p x = false := by
  induction xs generalizing piece with
  | nil =>
      rw [List.splitOnP_nil, List.mem_singleton] at h
      rw [h]
      exact fun x hx => absurd hx List.not_mem_nil
  | cons y xs ih =>
      rw [List.splitOnP_cons_eq_if_modifyHead] at h
      cases hy : p y with
      | true =>
          rw [hy, if_pos rfl] at h
          rcases List.mem_cons.mp h with rfl | h
          · exact fun x hx => absurd hx List.not_mem_nil
          · exact ih h
      | false =>
          rw [hy, if_neg Bool.false_ne_true] at h
          cases hsplit : xs.splitOnP p with
          | nil => exact absurd hsplit (List.splitOnP_ne_nil p xs)
          | cons first rest =>
              rw [hsplit, List.modifyHead_cons] at h
              rw [hsplit] at ih
              rcases List.mem_cons.mp h with rfl | h
              · exact List.forall_mem_cons.mpr ⟨hy, ih List.mem_cons_self⟩
              · exact ih (List.mem_cons_of_mem _ h)

theorem mem_splitWhitespace {word : List Char} (h : word ∈ splitWhitespace s) :
    word ≠ [] ∧ ∀ c ∈ word, isWhitespace c = false := by
  obtain ⟨hmem, hne⟩ := List.mem_filter.mp h
  exact ⟨of_decide_eq_true hne, not_mem_splitOnP hmem⟩

/-- The chars of the words are those that are no white space. -/
theorem flatten_splitWhitespace (s : List Char) :
    (splitWhitespace s).flatten = s.filter (!isWhitespace ·) := by
  have hpieces : (splitWhitespace s).flatten =
      (s.splitOnP isWhitespace).flatten := by
    exact List.flatten_filter_ne_nil
  rw [hpieces]
  clear hpieces
  induction s with
  | nil => rfl
  | cons c s ih =>
      rw [List.splitOnP_cons_eq_if_modifyHead]
      cases hc : isWhitespace c with
      | true => simp [hc, ih]
      | false =>
          rw [List.filter_cons_of_pos (by simp [hc])]
          cases hsplit : s.splitOnP isWhitespace with
          | nil => exact absurd hsplit (List.splitOnP_ne_nil _ s)
          | cons first rest =>
              rw [if_neg Bool.false_ne_true, List.modifyHead_cons,
                List.flatten_cons, List.cons_append, ← ih, hsplit,
                List.flatten_cons]

end Zmax.Text
