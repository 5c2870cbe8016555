/-
Live brackets and the rest of a line.

`pair` says what brackets leave open; what pairs up to the end is valid
(`validate_ok`). Whitespace and live closers, `inTrail`, are what indent
mode may drop and put: besides brackets they leave whitespace, which
trimming does not see (`trim_pad`).
-/
import Zmax.Term.Proofs.Scan

namespace Zmax.Parinfer

variable {cells : List Cell}

-- == whitespace

theorem rdropWhile_spec {α : Type} (p : α → Bool) (xs : List α) :
    ∃ ys, xs = xs.rdropWhile p ++ ys ∧ (∀ y ∈ ys, p y = true)
      ∧ ∀ x ∈ (xs.rdropWhile p).getLast?, p x = false := by
  refine ⟨xs.rtakeWhile p, List.rdropWhile_append_rtakeWhile.symm,
    fun y hy => List.mem_rtakeWhile_imp hy, fun x hx => ?_⟩
  have hne : xs.rdropWhile p ≠ [] := by
    rintro heq
    rw [heq] at hx
    cases hx
  rw [List.getLast?_eq_some_getLast hne] at hx
  exact Option.some.inj hx ▸
    Bool.eq_false_iff.mpr (List.rdropWhile_last_not p xs hne)

/-- Whitespace at the ends of a text makes no difference to it trimmed. -/
theorem trim_pad {before text after : Tendril}
    (hbefore : ∀ c ∈ before, Text.isWhitespace c = true)
    (hafter : ∀ c ∈ after, Text.isWhitespace c = true) :
    Text.trim (before ++ text ++ after) = Text.trim text := by
  unfold Text.trim Text.trimEnd
  rw [List.append_assoc, List.dropWhile_append_of_pos hbefore,
    List.dropWhile_append]
  have hpad : ∀ xs : Tendril,
      (xs ++ after).rdropWhile Text.isWhitespace
        = xs.rdropWhile Text.isWhitespace := by
    intro xs
    unfold List.rdropWhile
    rw [List.reverse_append, List.dropWhile_append_of_pos]
    exact fun c hc => hafter c (List.mem_reverse.mp hc)
  split
  · next hempty =>
      rw [List.isEmpty_iff.mp hempty, List.dropWhile_eq_nil_iff.mpr hafter]
  · exact hpad _

theorem inTrail_of_isWhitespace {cell : Cell}
    (h : cell.isWhitespace = true) : inTrail cell = true := by
  unfold inTrail
  rw [h]
  rfl

theorem isBracket_of_isWhitespace {cell : Cell}
    (h : cell.isWhitespace = true) : cell.isBracket = false := by
  obtain ⟨-, -, -, hopen, hclose⟩ := isWhitespace_ne h
  unfold Cell.isBracket Cell.isOpen Cell.isClose
  rw [hopen, hclose, Bool.and_false]
  rfl

-- == brackets and the rest

theorem brackets_append (xs ys : List Cell) :
    brackets (xs ++ ys) = brackets xs ++ brackets ys := by
  unfold brackets
  rw [List.filter_append, chars_append]

theorem payload_append (xs ys : List Cell) :
    payload (xs ++ ys) = payload xs ++ payload ys := by
  unfold payload
  rw [List.filter_append, chars_append]

theorem brackets_eq_nil (h : ∀ cell ∈ cells, cell.isBracket = false) :
    brackets cells = [] := by
  unfold brackets
  rw [List.filter_eq_nil_iff.mpr fun cell hcell =>
    Bool.eq_false_iff.mp (h cell hcell)]
  rfl

theorem brackets_inert (text : Tendril) : brackets (inert text) = [] := by
  refine brackets_eq_nil fun cell hcell => ?_
  obtain ⟨c, -, rfl⟩ := List.mem_map.mp hcell
  rfl

/-- Whitespace and closers leave whitespace besides the brackets. -/
theorem payload_inTrail (h : ∀ cell ∈ cells, inTrail cell = true) :
    ∀ c ∈ payload cells, Text.isWhitespace c = true := by
  intro c hc
  obtain ⟨cell, hcell, rfl⟩ := List.mem_map.mp hc
  obtain ⟨hmem, hbracket⟩ := List.mem_filter.mp hcell
  have htrail := h cell hmem
  unfold inTrail at htrail
  rw [Bool.or_eq_true] at htrail
  refine htrail.resolve_right fun hclose => ?_
  unfold Cell.isBracket at hbracket
  rw [hclose, Bool.or_true] at hbracket
  cases hbracket

theorem payload_allLive {text : Tendril}
    (h : ∀ c ∈ text, isClose c = true) : payload (allLive text) = [] := by
  unfold payload
  rw [List.filter_eq_nil_iff.mpr]
  · rfl
  · intro cell hcell
    obtain ⟨c, hc, rfl⟩ := List.mem_map.mp hcell
    unfold Cell.isBracket Cell.isClose
    rw [h c hc]
    simp

theorem brackets_allLive {text : Tendril}
    (h : ∀ c ∈ text, isClose c = true) :
    brackets (allLive text) = text := by
  unfold brackets
  rw [List.filter_eq_self.mpr, chars_allLive]
  intro cell hcell
  obtain ⟨c, hc, rfl⟩ := List.mem_map.mp hcell
  unfold Cell.isBracket Cell.isClose
  rw [h c hc]
  simp

-- == pairs

theorem pair_append (xs ys : Tendril) (stack : List Char) :
    pair (xs ++ ys) stack = (pair xs stack).bind (pair ys) := by
  induction xs generalizing stack with
  | nil => rfl
  | cons c xs ih =>
      rw [List.cons_append]
      by_cases hopen : isOpen c = true
      · have hstep : ∀ cs, pair (c :: cs) stack = pair cs (c :: stack) :=
          fun _ => if_pos hopen
        rw [hstep, hstep]
        exact ih _
      · cases stack with
        | nil =>
            have hstep : ∀ cs, pair (c :: cs) [] = none :=
              fun _ => if_neg hopen
            rw [hstep, hstep]
            rfl
        | cons opener stack =>
            have hstep : ∀ cs, pair (c :: cs) (opener :: stack)
                = if closerFor opener = c then pair cs stack else none :=
              fun _ => if_neg hopen
            rw [hstep, hstep]
            split
            · exact ih _
            · rfl

section

variable {cell : Cell}

theorem pair_open (h : cell.isOpen = true) (cells : List Cell)
    (stack : List Char) :
    pair (brackets (cell :: cells)) stack
      = pair (brackets cells) (cell.char :: stack) := by
  have hbracket : cell.isBracket = true := by
    unfold Cell.isBracket
    rw [h]
    rfl
  unfold brackets
  rw [List.filter_cons_of_pos hbracket]
  exact if_pos (Bool.and_eq_true_iff.mp h).2

theorem pair_close (h : cell.isClose = true) (cells : List Cell)
    (stack : List Char) :
    pair (brackets (cell :: cells)) stack
      = match stack with
        | opener :: stack =>
            if closerFor opener = cell.char then pair (brackets cells) stack
            else none
        | [] => none := by
  have hbracket : cell.isBracket = true := by
    unfold Cell.isBracket
    rw [h, Bool.or_true]
  obtain ⟨-, -, -, hopen⟩ := isClose_ne (Bool.and_eq_true_iff.mp h).2
  unfold brackets
  rw [List.filter_cons_of_pos hbracket]
  exact if_neg (Bool.eq_false_iff.mp hopen)

theorem brackets_other (hopen : ¬ cell.isOpen = true)
    (hclose : ¬ cell.isClose = true) (cells : List Cell) :
    brackets (cell :: cells) = brackets cells := by
  have hbracket : ¬ cell.isBracket = true := by
    unfold Cell.isBracket
    rw [Bool.or_eq_true]
    exact fun h => h.elim hopen hclose
  unfold brackets
  rw [List.filter_cons_of_neg hbracket]

theorem payload_bracket (h : cell.isBracket = true) (cells : List Cell) :
    payload (cell :: cells) = payload cells := by
  unfold payload
  rw [List.filter_cons_of_neg]
  rw [h]
  exact Bool.false_ne_true

theorem payload_other (h : ¬ cell.isBracket = true) (cells : List Cell) :
    payload (cell :: cells) = cell.char :: payload cells := by
  unfold payload
  rw [List.filter_cons_of_pos]
  · rfl
  · rw [Bool.eq_false_iff.mpr h]
    rfl

end

theorem isClose_closerFor (c : Char) : isClose (closerFor c) = true := by
  unfold closerFor
  split
  · rfl
  · split <;> rfl

theorem pair_closer (c : Char) (cs : Tendril) (stack : List Char) :
    pair (closerFor c :: cs) (c :: stack) = pair cs stack := by
  obtain ⟨-, -, -, hopen⟩ := isClose_ne (isClose_closerFor c)
  refine (if_neg (Bool.eq_false_iff.mp hopen)).trans ?_
  exact if_pos rfl

/-- The closers of forms are what closes them. -/
theorem closeForms_spec (start : Nat) (stack : List OpenAt) :
    pair (closeForms start stack).1 (stack.map Prod.fst)
        = some ((closeForms start stack).2.map Prod.fst)
      ∧ ∀ c ∈ (closeForms start stack).1, isClose c = true := by
  induction stack with
  | nil => exact ⟨rfl, nofun⟩
  | cons form stack ih =>
      obtain ⟨opener, x⟩ := form
      unfold closeForms
      split
      · refine ⟨?_, ?_⟩
        · exact (pair_closer _ _ _).trans ih.1
        · intro c hc
          rcases List.mem_cons.mp hc with rfl | hc
          · exact isClose_closerFor opener
          · exact ih.2 c hc
      · exact ⟨rfl, nofun⟩

theorem pair_all (stack : List OpenAt) :
    pair (stack.map fun (opener, _) => closerFor opener)
      (stack.map Prod.fst) = some [] := by
  induction stack with
  | nil => rfl
  | cons form stack ih => exact (pair_closer _ _ _).trans ih

/-- On a line that is copied the stack follows the brackets, if they pair
up. -/
theorem stringBrackets_spec (j : Nat) {stack : List OpenAt}
    {left : List Char}
    (h : pair (brackets cells) (stack.map Prod.fst) = some left) :
    (stringBrackets cells j stack).map Prod.fst = left := by
  induction cells generalizing j stack with
  | nil => exact Option.some.inj h
  | cons cell cells ih =>
      unfold stringBrackets
      by_cases hopen : cell.isOpen = true
      · rw [if_pos hopen]
        exact ih (j + 1) ((pair_open hopen cells _).symm.trans h)
      · rw [if_neg hopen]
        by_cases hclose : cell.isClose = true
        · rw [if_pos hclose]
          rw [pair_close hclose] at h
          cases stack with
          | nil => cases h
          | cons form stack =>
              by_cases hkind : closerFor form.1 = cell.char
              · exact ih (j + 1) ((if_pos hkind).symm.trans h)
              · cases (if_neg hkind).symm.trans h
        · rw [if_neg hclose]
          rw [brackets_other hopen hclose] at h
          exact ih (j + 1) h

-- == validating

theorem validateCells_ok (i : Nat) {self : Brackets} {left : List Char}
    (h : pair (brackets cells) self.stack = some left) :
    validateCells i cells self = .ok { self with stack := left } := by
  induction cells generalizing self with
  | nil =>
      obtain rfl : self.stack = left := Option.some.inj h
      rfl
  | cons cell cells ih =>
      unfold validateCells
      by_cases hopen : cell.isOpen = true
      · rw [if_pos hopen]
        exact @ih { self with stack := cell.char :: self.stack }
          ((pair_open hopen cells _).symm.trans h)
      · rw [if_neg hopen]
        by_cases hclose : cell.isClose = true
        · rw [if_pos hclose]
          rw [pair_close hclose] at h
          obtain ⟨stack, extraClose⟩ := self
          cases stack with
          | nil => cases h
          | cons opener stack =>
              dsimp only at h ⊢
              by_cases hkind : closerFor opener = cell.char
              · rw [if_pos hkind] at h ⊢
                exact @ih ⟨stack, extraClose⟩ h
              · cases (if_neg hkind).symm.trans h
        · rw [if_neg hclose]
          rw [brackets_other hopen hclose] at h
          exact ih h

theorem validateLines_ok (i : Nat) {lines : List LineScan}
    {self : Brackets} {left : List Char}
    (h : pair (lines.flatMap fun l => brackets l.cells) self.stack
      = some left) :
    validateLines i lines self = .ok { self with stack := left } := by
  induction lines generalizing i self with
  | nil =>
      obtain rfl : self.stack = left := Option.some.inj h
      rfl
  | cons l lines ih =>
      rw [List.flatMap_cons, pair_append] at h
      obtain ⟨stack, hstack, h⟩ := Option.bind_eq_some_iff.mp h
      unfold validateLines
      rw [validateCells_ok i hstack]
      exact @ih (i + 1) { self with stack := stack } h

/-- Lines whose brackets pair up, with all strings closed, are balanced. -/
theorem validate_ok {lines : List LineScan}
    (h : pair (lines.flatMap fun l => brackets l.cells) [] = some [])
    (hstring : lines.getLast?.any LineScan.endsInString = false) :
    validate lines = .ok true := by
  unfold validate
  rw [@validateLines_ok 0 lines ⟨[], false⟩ [] h]
  show (if _ then _ else _) = _
  rw [if_neg (Bool.eq_false_iff.mp hstring)]
  rfl

end Zmax.Parinfer
