/-
Where yanked and deleted text is found again.

One operation writes the unnamed register and one more place: a letter,
the yank register, the small-delete register or the ring (`exec_held`).
What the registers hold after a run is then read off the operations
themselves, newest first (`Spread`): each of these places only ever takes
the operations that are meant for it, in the order they come.

A clipboard is compared with the saved values by taking them off its
front; what is left behind the last one is not looked at
(`contentsAreSaved_iff`).
-/
import Mathlib
import Zmax.View.Register

namespace Zmax.Registers

/-- A yank or a delete of the values of the selections. -/
inductive Op where
  | yank (register : Option Char) (values : List (List Char))
  | delete (register : Option Char) (values : List (List Char))
      (small : Bool)
  deriving DecidableEq, Repr

namespace Op

def register : Op → Option Char
  | .yank register _ | .delete register _ _ => register

def values : Op → List (List Char)
  | .yank _ values | .delete _ values _ => values

/-- The letter the operation names, if it names one. -/
def letter (op : Op) : Option Char := op.register.filter (· ≠ '"')

/-- No register is given, or the unnamed one, or a letter. -/
def Lettered (op : Op) : Prop := ∀ c, op.letter = some c → c.isAlpha

/-- A yank with no named register. -/
def plainYank : Op → Bool
  | .yank register _ => (register.filter (· ≠ '"')).isNone
  | .delete .. => false

/-- A delete with no named register, small or not. -/
def plainDelete (isSmall : Bool) : Op → Bool
  | .yank .. => false
  | .delete register _ small =>
      (register.filter (· ≠ '"')).isNone && small == isSmall

def exec (C : Clipboard) (self : Registers) : Op → Except String Registers
  | .yank register values => self.writeYanked C register values
  | .delete register values small => self.writeDeleted C register values small

end Op

/-- Operations one after the other. -/
def run (C : Clipboard) (self : Registers) (ops : List Op) :
    Except String Registers :=
  ops.foldlM (fun self op => op.exec C self) self

/-- The values of the operations of a kind, newest first. -/
def newest (p : Op → Bool) (ops : List Op) : List (List (List Char)) :=
  (ops.reverse.filter p).map Op.values

/-- Text that is put between, if any. -/
def Newline (s : List Char) : Prop := s = [] ∨ s = ['\n']

/-- Values appended to those of a register: each old value stands in
front of the one that comes for it. -/
inductive Appended : List (List Char) → List (List Char) →
    List (List Char) → Prop where
  | done (old : List (List Char)) : Appended old [] old
  | fresh (values : List (List Char)) : Appended [] values values
  | cons {existing before incoming after : List Char}
      {old values new : List (List Char)} (hbefore : Newline before)
      (hafter : Newline after) (h : Appended old values new) :
      Appended (existing :: old) (incoming :: values)
        ((existing ++ before ++ incoming ++ after) :: new)

-- == appending

theorem joinValue_eq (existing incoming : List Char) :
    ∃ before after, Newline before ∧ Newline after ∧
      joinValue existing incoming =
        existing ++ before ++ incoming ++ after := by
  have hend : ∀ s : List Char, ∃ after, Newline after ∧
      (if s.getLast? == some '\n' then s else s ++ ['\n']) = s ++ after := by
    intro s
    split
    · exact ⟨[], .inl rfl, (List.append_nil s).symm⟩
    · exact ⟨['\n'], .inr rfl, rfl⟩
  dsimp only [joinValue]
  split
  · exact ⟨[], [], .inl rfl, .inl rfl, by
      rw [List.append_nil, List.append_nil]⟩
  · split
    · obtain ⟨after, hafter, heq⟩ := hend (existing ++ ['\n'] ++ incoming)
      exact ⟨['\n'], after, .inr rfl, hafter, heq⟩
    · obtain ⟨after, hafter, heq⟩ := hend (existing ++ incoming)
      exact ⟨[], after, .inl rfl, hafter, by rw [List.append_nil, heq]⟩

theorem appended_joinValues (logical values : List (List Char)) :
    Appended logical values (joinValues logical values) := by
  induction logical generalizing values with
  | nil =>
      cases values with
      | nil => exact .done []
      | cons incoming values => exact .fresh _
  | cons existing logical ih =>
      cases values with
      | nil => exact .done _
      | cons incoming values =>
          obtain ⟨before, after, hbefore, hafter, heq⟩ :=
            joinValue_eq existing incoming
          rw [joinValues, heq]
          exact .cons hbefore hafter (ih values)

-- == one slot

section Slots

variable {C : Clipboard} {self : Registers} {name k : Char}
  {values : List (List Char)}

/-- What a register holds, in logical order. -/
def held (self : Registers) (name : Char) : Option (List (List Char)) :=
  (self.inner.get name).map List.reverse

theorem ne_of_isVimDistributed (h : isVimDistributed name) :
    name ≠ '_' ∧ name ≠ '#' ∧ name ≠ '.' ∧ name ≠ '%' ∧ name ≠ '*' ∧
      name ≠ '+' := by
  refine ⟨?_, ?_, ?_, ?_, ?_, ?_⟩ <;> rintro rfl <;> exact absurd h (by decide)

theorem read_eq (h : isVimDistributed name)
    (computed : Char → List (List Char)) :
    self.read computed name = self.held name := by
  obtain ⟨h₁, h₂, h₃, h₄, h₅, h₆⟩ := ne_of_isVimDistributed h
  unfold read
  split <;> first | contradiction | rfl

theorem write_eq (h : isVimDistributed name) :
    self.write C name values = .ok (self.store name values) := by
  obtain ⟨h₁, h₂, h₃, h₄, h₅, h₆⟩ := ne_of_isVimDistributed h
  unfold write
  split <;> first | contradiction | rfl

theorem held_store :
    (self.store name values).held k =
      if k = name then some values else self.held k := by
  rw [held, store]
  split
  · next heq => rw [heq, Table.get_insert_self, Option.map_some,
      List.reverse_reverse]
  · next hne =>
      rw [Table.get_insert_ne hne]
      rfl

theorem appendValues_eq (h : isVimDistributed name) :
    self.appendValues C name values =
      self.store name (joinValues ((self.held name).getD []) values) := by
  rw [appendValues, write_eq h]
  rfl

-- == the ring

theorem fromDigit_inj {i j : Nat} (hi : i < 10) (hj : j < 10)
    (h : fromDigit i = fromDigit j) : i = j := by
  have hall : ∀ i < 10, ∀ j < 10, fromDigit i = fromDigit j → i = j := by
    decide
  exact hall i hi j hj h

theorem held_shift {i : Nat} :
    (self.shift i).held k =
      if k = fromDigit (i + 1) then
        (self.held (fromDigit i)).or (self.held k)
      else self.held k := by
  rw [shift]
  split
  · next vals heq =>
      have hfrom : self.held (fromDigit i) = some vals.reverse := by
        rw [held, heq]
        rfl
      split
      · next hk =>
          rw [hfrom, held, hk, Table.get_insert_self]
          rfl
      · next hk =>
          rw [held, Table.get_insert_ne hk]
          rfl
  · next heq =>
      have hfrom : self.held (fromDigit i) = none := by
        rw [held, heq]
        rfl
      rw [hfrom, Option.none_or, ite_self]

/-- What is no slot behind the first one stays. -/
theorem held_rotate_of_ne {n : Nat}
    (h : ∀ i, 1 ≤ i → i ≤ n → k ≠ fromDigit (i + 1)) :
    (self.rotate n).held k = self.held k := by
  induction n generalizing self with
  | zero => rfl
  | succ n ih =>
      rw [rotate, ih fun i hi hn => h i hi (by omega), held_shift,
        if_neg (h (n + 1) (by omega) (by omega))]

/-- Every slot takes what the one before it held, if it held something. -/
theorem held_rotate {n i : Nat} (hn : n ≤ 8) (hi : 1 ≤ i) (hin : i ≤ n) :
    (self.rotate n).held (fromDigit (i + 1)) =
      (self.held (fromDigit i)).or (self.held (fromDigit (i + 1))) := by
  induction n generalizing self with
  | zero => omega
  | succ n ih =>
      have hne : ∀ j, j ≤ n + 1 → fromDigit j ≠ fromDigit (n + 1 + 1) :=
        fun j hj heq => by
          have := fromDigit_inj (by omega) (by omega) heq
          omega
      rw [rotate]
      rcases Nat.lt_or_ge n i with hlt | hle
      · have heq : i = n + 1 := by omega
        subst heq
        rw [held_rotate_of_ne fun j hj hjn h => hne (j + 1) (by omega) h.symm,
          held_shift, if_pos rfl]
      · rw [ih (by omega) hle, held_shift, held_shift,
          if_neg (hne i (by omega)), if_neg (hne (i + 1) (by omega))]

end Slots

-- == one operation

section Letters

variable {c : Char}

theorem isAlpha_ne (h : c.isAlpha) : c ≠ '"' ∧ c ≠ '0' ∧ c ≠ '-' := by
  refine ⟨?_, ?_, ?_⟩ <;> rintro rfl <;> exact absurd h (by decide)

theorem isAlpha_ne_fromDigit (h : c.isAlpha) {i : Nat} (hi : i < 10) :
    c ≠ fromDigit i := by
  have hall : ∀ i < 10, ¬ (fromDigit i).isAlpha := by decide
  rintro rfl
  exact hall i hi h

theorem isAlpha_toLower (h : c.isAlpha) : c.toLower.isAlpha :=
  (Char.isAlpha_toLower_eq_isAlpha c).trans h

theorem isVimDistributed_of_isAlpha (h : c.isAlpha) :
    isVimDistributed c := by
  rw [isVimDistributed, Char.isAlphanum, h, Bool.true_or, Bool.or_true]

theorem isVimDistributed_fromDigit {i : Nat} (hi : i < 10) :
    isVimDistributed (fromDigit i) := by
  have hall : ∀ i < 10, isVimDistributed (fromDigit i) := by decide
  exact hall i hi

end Letters

namespace Op

variable {C : Clipboard} {self : Registers}

/-- What an operation leaves a letter with that it names. -/
def atLetter (op : Op) (r : Char) (held : Option (List (List Char))) :
    List (List Char) :=
  if r.isUpper then joinValues (held.getD []) op.values else op.values

/-- The registers behind an operation, store by store. -/
def spread (self : Registers) (op : Op) : Registers :=
  match op.letter with
  | some r =>
      (self.store r.toLower (op.atLetter r (self.held r.toLower))).store
        '"' op.values
  | none =>
      let out := self.store '"' op.values
      match op with
      | .yank _ values => out.store '0' values
      | .delete _ values true => out.store '-' values
      | .delete _ values false => (out.rotate 8).store '1' values

/-- Either a letter is named, or the name is the unnamed register's. -/
theorem letter_cases {op : Op} (h : op.Lettered) :
    (∃ r, op.register = some r ∧ op.letter = some r ∧ r.isAlpha) ∨
      (op.letter = none ∧
        (op.register = none ∨ op.register = some '"')) := by
  cases hr : op.register with
  | none => exact .inr ⟨by rw [letter, hr, Option.filter_none], .inl rfl⟩
  | some r =>
      by_cases hq : r = '"'
      · subst hq
        exact .inr ⟨by rw [letter, hr]; rfl, .inr rfl⟩
      · have hl : op.letter = some r := by
          rw [letter, hr, Option.filter_some, if_pos (decide_eq_true hq)]
        exact .inl ⟨r, rfl, hl, h r hl⟩

theorem exec_eq {op : Op} (h : op.Lettered) :
    op.exec C self = .ok (op.spread self) := by
  have hquote : isVimDistributed '"' := by decide
  have hminus : isVimDistributed '-' := by decide
  have hzero : isVimDistributed '0' := by decide
  have hone : isVimDistributed '1' := by decide
  rcases letter_cases h with ⟨r, hr, hl, halpha⟩ | ⟨hl, hr⟩
  · have hdist := isVimDistributed_of_isAlpha halpha
    have hlower := isVimDistributed_of_isAlpha (isAlpha_toLower halpha)
    have hne := (isAlpha_ne halpha).1
    rw [spread, hl]
    by_cases hup : r.isUpper
    · cases op with
      | yank register values =>
          cases hr
          simp [exec, Registers.writeYanked, atLetter, Op.values, hdist, hup,
            hne, appendValues_eq hlower, write_eq hquote,
            bind, Except.bind, pure, Except.pure]
      | delete register values small =>
          cases hr
          simp [exec, Registers.writeDeleted, atLetter, Op.values, hdist, hup,
            hne, Option.filter_some, appendValues_eq hlower,
            write_eq hquote]
    · have hsame := Char.toLower_eq_of_not_isUpper hup
      cases op with
      | yank register values =>
          cases hr
          simp [exec, Registers.writeYanked, atLetter, Op.values, hdist, hup,
            hne, hsame, write_eq hdist, write_eq hquote,
            bind, Except.bind, pure, Except.pure]
      | delete register values small =>
          cases hr
          simp [exec, Registers.writeDeleted, atLetter, Op.values, hdist, hup,
            hne, hsame, Option.filter_some, write_eq hdist,
            write_eq hquote, bind, Except.bind]
  · rw [spread, hl]
    cases op with
    | yank register values =>
        rcases hr with hr | hr <;> cases hr <;>
          simp [exec, Registers.writeYanked, Op.values, hquote,
            write_eq hquote, write_eq hzero, bind,
            Except.bind, pure, Except.pure]
    | delete register values small =>
        rcases hr with hr | hr <;> cases hr <;> cases small <;>
          simp [exec, Registers.writeDeleted, Op.values, hquote,
            Option.filter_some, write_eq hquote,
            write_eq hminus, write_eq hone, bind,
            Except.bind]

variable {op : Op}

/-- What an operation is meant for, and what it then does. -/
theorem spread_cases (h : op.Lettered) (self : Registers) :
    (∃ r, op.letter = some r ∧ r.isAlpha ∧ op.plainYank = false ∧
      (∀ isSmall, op.plainDelete isSmall = false) ∧
      op.spread self = (self.store r.toLower
        (op.atLetter r (self.held r.toLower))).store '"' op.values) ∨
    (op.letter = none ∧ op.plainYank = true ∧
      (∀ isSmall, op.plainDelete isSmall = false) ∧
      op.spread self = (self.store '"' op.values).store '0' op.values) ∨
    (op.letter = none ∧ op.plainYank = false ∧ op.plainDelete true = true ∧
      op.plainDelete false = false ∧
      op.spread self = (self.store '"' op.values).store '-' op.values) ∨
    (op.letter = none ∧ op.plainYank = false ∧ op.plainDelete true = false ∧
      op.plainDelete false = true ∧
      op.spread self =
        ((self.store '"' op.values).rotate 8).store '1' op.values) := by
  cases hl : op.letter with
  | some r =>
      refine .inl ⟨r, rfl, h r hl, ?_, ?_, ?_⟩
      · cases op with
        | yank register values => exact congrArg Option.isNone hl
        | delete register values small => rfl
      · intro isSmall
        cases op with
        | yank register values => rfl
        | delete register values small =>
            have hsome : (register.filter (· ≠ '"')).isNone = false :=
              congrArg Option.isNone hl
            rw [plainDelete, hsome, Bool.false_and]
      · rw [spread, hl]
  | none =>
      right
      cases op with
      | yank register values =>
          refine .inl ⟨rfl, congrArg Option.isNone hl, fun _ => rfl, ?_⟩
          rw [spread, hl]
          rfl
      | delete register values small =>
          have hsmall : ∀ isSmall,
              (Op.delete register values small).plainDelete isSmall =
                (small == isSmall) := by
            intro isSmall
            have hnone : (register.filter (· ≠ '"')).isNone = true :=
              congrArg Option.isNone hl
            rw [plainDelete, hnone, Bool.true_and]
          right
          cases small with
          | true =>
              refine .inl ⟨rfl, rfl, hsmall true, hsmall false, ?_⟩
              rw [spread, hl]
              rfl
          | false =>
              refine .inr ⟨rfl, rfl, hsmall true, hsmall false, ?_⟩
              rw [spread, hl]
              rfl

/-- A register that the ring does not reach. -/
theorem held_rotate_other {k : Char} (h : ∀ i < 10, 2 ≤ i → k ≠ fromDigit i) :
    (self.rotate 8).held k = self.held k :=
  held_rotate_of_ne fun i hi hi' => h (i + 1) (by omega) (by omega)

theorem held_quote (h : op.Lettered) :
    (op.spread self).held '"' = some op.values := by
  rcases spread_cases h self with ⟨r, -, -, -, -, heq⟩ | ⟨-, -, -, heq⟩ |
    ⟨-, -, -, -, heq⟩ | ⟨-, -, -, -, heq⟩
  · rw [heq, held_store, if_pos rfl]
  · rw [heq, held_store, if_neg (by decide), held_store,
      if_pos rfl]
  · rw [heq, held_store, if_neg (by decide), held_store,
      if_pos rfl]
  · rw [heq, held_store, if_neg (by decide),
      held_rotate_other (by decide), held_store, if_pos rfl]

theorem held_zero (h : op.Lettered) :
    (op.spread self).held '0' =
      if op.plainYank then some op.values else self.held '0' := by
  rcases spread_cases h self with ⟨r, -, hr, hy, -, heq⟩ | ⟨-, hy, -, heq⟩ |
    ⟨-, hy, -, -, heq⟩ | ⟨-, hy, -, -, heq⟩
  · have hne := (isAlpha_ne (isAlpha_toLower hr)).2.1
    rw [heq, hy, held_store, if_neg (by decide),
      held_store, if_neg hne.symm]
    rfl
  · rw [heq, hy, held_store, if_pos rfl]
    rfl
  · rw [heq, hy, held_store, if_neg (by decide),
      held_store, if_neg (by decide)]
    rfl
  · rw [heq, hy, held_store, if_neg (by decide),
      held_rotate_other (by decide), held_store,
      if_neg (by decide)]
    rfl

theorem held_minus (h : op.Lettered) :
    (op.spread self).held '-' =
      if op.plainDelete true then some op.values else self.held '-' := by
  rcases spread_cases h self with ⟨r, -, hr, -, hd, heq⟩ | ⟨-, -, hd, heq⟩ |
    ⟨-, -, hd, -, heq⟩ | ⟨-, -, hd, -, heq⟩
  · have hne := (isAlpha_ne (isAlpha_toLower hr)).2.2
    rw [heq, hd, held_store, if_neg (by decide),
      held_store, if_neg hne.symm]
    rfl
  · rw [heq, hd, held_store, if_neg (by decide),
      held_store, if_neg (by decide)]
    rfl
  · rw [heq, hd, held_store, if_pos rfl]
    rfl
  · rw [heq, hd, held_store, if_neg (by decide),
      held_rotate_other (by decide), held_store,
      if_neg (by decide)]
    rfl

/-- The first register of the ring takes the delete that comes, and every
other one what the one before it held. -/
theorem held_ring (h : op.Lettered) {i : Nat} (hi : i < 9) :
    (op.spread self).held (fromDigit (i + 1)) =
      if op.plainDelete false then
        (if i = 0 then some op.values
         else (self.held (fromDigit i)).or (self.held (fromDigit (i + 1))))
      else self.held (fromDigit (i + 1)) := by
  have hdigit : ∀ i < 9, fromDigit (i + 1) ≠ '"' ∧
      fromDigit (i + 1) ≠ '0' ∧ fromDigit (i + 1) ≠ '-' ∧
      (fromDigit (i + 1) = '1' ↔ i = 0) := by
    decide
  obtain ⟨hquote, hzero, hminus, hone⟩ := hdigit i hi
  rcases spread_cases h self with ⟨r, -, hr, -, hd, heq⟩ | ⟨-, -, hd, heq⟩ |
    ⟨-, -, -, hd, heq⟩ | ⟨-, -, -, hd, heq⟩
  · have hne := isAlpha_ne_fromDigit (isAlpha_toLower hr)
      (show i + 1 < 10 by omega)
    rw [heq, hd, held_store, if_neg hquote, held_store,
      if_neg hne.symm]
    rfl
  · rw [heq, hd, held_store, if_neg hzero, held_store,
      if_neg hquote]
    rfl
  · rw [heq, hd, held_store, if_neg hminus, held_store,
      if_neg hquote]
    rfl
  · rw [heq, hd, held_store, if_pos rfl]
    by_cases hi0 : i = 0
    · rw [if_pos (hone.mpr hi0), if_pos hi0]
    · have hprev := (hdigit (i - 1) (by omega)).1
      rw [Nat.sub_add_cancel (by omega)] at hprev
      rw [if_neg fun hc => hi0 (hone.mp hc), if_neg hi0,
        held_rotate (by omega) (by omega) (by omega),
        held_store, if_neg hprev, held_store,
        if_neg hquote]

theorem held_letter (h : op.Lettered) {c : Char} (hc : c.isAlpha) :
    (op.spread self).held c =
      match op.letter with
      | some r =>
          if c = r.toLower then some (op.atLetter r (self.held c))
          else self.held c
      | none => self.held c := by
  obtain ⟨hquote, hzero, hminus⟩ := isAlpha_ne hc
  have hdigit : ∀ i < 10, 2 ≤ i → c ≠ fromDigit i :=
    fun i hi _ => isAlpha_ne_fromDigit hc hi
  have hone : c ≠ '1' := isAlpha_ne_fromDigit hc (i := 1) (by decide)
  rcases spread_cases h self with ⟨r, hl, -, -, -, heq⟩ | ⟨hl, -, -, heq⟩ |
    ⟨hl, -, -, -, heq⟩ | ⟨hl, -, -, -, heq⟩
  · rw [heq, hl, held_store, if_neg hquote, held_store]
    split
    · next hcr =>
        rw [hcr]
        exact (if_pos rfl).symm
    · next hcr => exact (if_neg hcr).symm
  · rw [heq, hl, held_store, if_neg hzero, held_store,
      if_neg hquote]
  · rw [heq, hl, held_store, if_neg hminus, held_store,
      if_neg hquote]
  · rw [heq, hl, held_store, if_neg hone, held_rotate_other hdigit,
      held_store, if_neg hquote]

end Op

-- == a run

variable {C : Clipboard} {start self : Registers} {ops : List Op} {op : Op}

theorem run_eq (h : ∀ op ∈ ops, op.Lettered) :
    run C self ops = .ok (ops.foldl Op.spread self) := by
  induction ops generalizing self with
  | nil => rfl
  | cons op ops ih =>
      rw [run, List.foldlM_cons, Op.exec_eq (h op List.mem_cons_self)]
      exact ih fun op hop => h op (List.mem_cons_of_mem _ hop)

theorem newest_concat (p : Op → Bool) :
    newest p (ops ++ [op]) =
      if p op then op.values :: newest p ops else newest p ops := by
  rw [newest, List.reverse_append, List.reverse_singleton,
    List.singleton_append, List.filter_cons]
  split
  · rfl
  · rfl

/-- What the registers that no letter names hold behind a run: the newest
of what was meant for them. The slots of the ring are bare as long as
nothing has reached them. -/
structure Spread (computed : Char → List (List Char)) (start : Registers)
    (ops : List Op) (out : Registers) : Prop where
  yank : out.read computed '0' =
    (newest Op.plainYank ops).head?.or (start.read computed '0')
  small : out.read computed '-' =
    (newest (Op.plainDelete true) ops).head?.or (start.read computed '-')
  ring : ∀ i < 9, ∀ values,
    (newest (Op.plainDelete false) ops)[i]? = some values →
      out.read computed (fromDigit (i + 1)) = some values
  bare : (∀ i < 9, start.read computed (fromDigit (i + 1)) = none) →
    ∀ i < 9, out.read computed (fromDigit (i + 1)) =
      (newest (Op.plainDelete false) ops)[i]?

/-- What one operation does to the letters. -/
structure LetterStep (computed : Char → List (List Char))
    (before : Registers) (op : Op) (after : Registers) : Prop where
  kept : ∀ c : Char, c.isAlpha →
    (∀ r, op.letter = some r → c ≠ r.toLower) →
      after.read computed c = before.read computed c
  set : ∀ r, op.letter = some r → ¬ r.isUpper →
    after.read computed r = some op.values
  appended : ∀ r, op.letter = some r → r.isUpper →
    ∃ new, after.read computed r.toLower = some new ∧
      Appended ((before.read computed r.toLower).getD []) op.values new

variable (computed : Char → List (List Char))

theorem spread_nil : Spread computed start [] start :=
  { yank := rfl
    small := rfl
    ring := fun _ _ _ h => nomatch h
    bare := fun h => h }

theorem spread_concat (h : op.Lettered) (hs : Spread computed start ops self) :
    Spread computed start (ops ++ [op]) (op.spread self) := by
  have hzero : ∀ out : Registers, out.read computed '0' = out.held '0' :=
    fun out => out.read_eq (by decide) computed
  have hminus : ∀ out : Registers, out.read computed '-' = out.held '-' :=
    fun out => out.read_eq (by decide) computed
  have hdigit : ∀ i < 10, ∀ out : Registers,
      out.read computed (fromDigit i) = out.held (fromDigit i) :=
    fun i hi out => out.read_eq (isVimDistributed_fromDigit hi) computed
  refine
    { yank := ?_
      small := ?_
      ring := fun i hi values hget => ?_
      bare := fun hbare i hi => ?_ }
  · rw [hzero, Op.held_zero h, newest_concat, ← hzero self, hs.yank]
    split <;> rfl
  · rw [hminus, Op.held_minus h, newest_concat, ← hminus self, hs.small]
    split <;> rfl
  · rw [hdigit (i + 1) (by omega), Op.held_ring h hi]
    rw [newest_concat] at hget
    split at hget
    · next hd =>
      rw [if_pos hd]
      cases i with
      | zero => exact hget
      | succ j =>
          have hprev := hs.ring j (by omega) values hget
          rw [hdigit (j + 1) (by omega)] at hprev
          rw [if_neg (Nat.succ_ne_zero j), hprev]
          rfl
    · next hd =>
      rw [if_neg hd, ← hdigit (i + 1) (by omega)]
      exact hs.ring i hi values hget
  · have hall := hs.bare hbare
    rw [hdigit (i + 1) (by omega), Op.held_ring h hi, newest_concat]
    split
    · cases i with
      | zero => rfl
      | succ j =>
          rw [if_neg (Nat.succ_ne_zero j), ← hdigit (j + 1) (by omega),
            ← hdigit (j + 1 + 1) (by omega), hall j (by omega),
            hall (j + 1) hi, List.getElem?_cons_succ]
          cases hj : (newest (Op.plainDelete false) ops)[j]? with
          | some values => rfl
          | none =>
              rw [Option.none_or, List.getElem?_eq_none]
              exact Nat.le_succ_of_le (List.getElem?_eq_none_iff.mp hj)
    · rw [← hdigit (i + 1) (by omega), hall i hi]

theorem letterStep (h : op.Lettered) :
    LetterStep computed self op (op.spread self) := by
  have hread : ∀ c : Char, c.isAlpha → ∀ out : Registers,
      out.read computed c = out.held c :=
    fun c hc out => out.read_eq (isVimDistributed_of_isAlpha hc) computed
  refine
    { kept := fun c hc hne => ?_
      set := fun r hl hup => ?_
      appended := fun r hl hup => ?_ }
  · rw [hread c hc, hread c hc, Op.held_letter h hc]
    split
    · next r hl => rw [if_neg (hne r hl)]
    · rfl
  · have hr := h r hl
    rw [hread r hr, Op.held_letter h hr, hl]
    refine (if_pos (Char.toLower_eq_of_not_isUpper hup).symm).trans ?_
    rw [Op.atLetter, if_neg hup]
  · have hr := isAlpha_toLower (h r hl)
    refine ⟨op.atLetter r (self.held r.toLower), ?_, ?_⟩
    · rw [hread _ hr, Op.held_letter h hr, hl]
      exact if_pos rfl
    · rw [hread _ hr, Op.atLetter, if_pos hup]
      exact appended_joinValues _ _

theorem spread_foldl (h : ∀ op ∈ ops, op.Lettered) :
    Spread computed start ops (ops.foldl Op.spread start) := by
  induction ops using List.reverseRecOn with
  | nil => exact spread_nil computed
  | append_singleton ops op ih =>
      rw [List.foldl_concat]
      exact spread_concat computed (h op (by simp))
        (ih fun op hop => h op (List.mem_append_left _ hop))

/-- After each operation of a run the unnamed register holds what was
just written, the yank register, the small-delete register and the ring
hold the newest of what was meant for them, and the letters have moved
only where one was named, by being set or appended to. -/
theorem register_law (C : Clipboard) (start : Registers) (ops : List Op)
    (op : Op) (h : ∀ o ∈ ops ++ [op], o.Lettered) :
    ∃ before after, run C start ops = .ok before ∧
      op.exec C before = .ok after ∧
      run C start (ops ++ [op]) = .ok after ∧
      after.read computed '"' = some op.values ∧
      Spread computed start (ops ++ [op]) after ∧
      LetterStep computed before op after := by
  have hop : op.Lettered := h op (by simp)
  have hops : ∀ o ∈ ops, o.Lettered :=
    fun o ho => h o (List.mem_append_left _ ho)
  refine ⟨ops.foldl Op.spread start, op.spread (ops.foldl Op.spread start),
    run_eq hops, Op.exec_eq hop, ?_, ?_, ?_, letterStep computed hop⟩
  · rw [run_eq h, List.foldl_concat]
  · rw [read_eq (by decide), Op.held_quote hop]
  · exact spread_concat computed hop (spread_foldl computed hops)

/-- A line is yanked, a word appended to register `a`, a line deleted. -/
theorem register_law_three :
    ∃ before after,
      run ⟨fun _ _ => .ok (), ['\n']⟩ {}
        [.yank none [['x', '\n']], .yank (some 'A') [['w']]] = .ok before ∧
      Op.exec ⟨fun _ _ => .ok (), ['\n']⟩ before
        (.delete none [['y', '\n']] false) = .ok after ∧
      after.read (fun _ => []) '1' = some [['y', '\n']] := by
  obtain ⟨before, after, hb, ha, -, -, hs, -⟩ :=
    register_law (fun _ => []) ⟨fun _ _ => .ok (), ['\n']⟩ {}
      [.yank none [['x', '\n']], .yank (some 'A') [['w']]]
      (.delete none [['y', '\n']] false) (by
        intro o ho c hc
        simp only [List.cons_append, List.nil_append, List.mem_cons,
          List.not_mem_nil, or_false] at ho
        rcases ho with rfl | rfl | rfl
        · exact absurd hc nofun
        · have hA : Op.letter (.yank (some 'A') [['w']]) = some 'A' := by
            decide
          rw [hA] at hc
          injection hc with hc
          rw [← hc]
          decide
        · exact absurd hc nofun)
  exact ⟨before, after, hb, ha, hs.ring 0 (by decide) _ (by decide)⟩

-- == clipboards

/-- Saved values as one text. -/
def joined (lineEnding : List Char) (savedValues : List (List Char)) :
    List Char :=
  lineEnding.intercalate savedValues.reverse

/-- The loop takes the values off the front, each behind a line ending. -/
theorem savedLoop_iff (lineEnding contents : List Char)
    (values : List (List Char)) :
    savedLoop lineEnding contents values = true ↔
      values.flatMap (lineEnding ++ ·) <+: contents := by
  induction values generalizing contents with
  | nil => exact ⟨fun _ => List.nil_prefix, fun _ => rfl⟩
  | cons value values ih =>
      rw [savedLoop, List.flatMap_cons]
      split
      · next h =>
          rw [Bool.and_eq_true, List.isPrefixOf_iff_prefix,
            List.isPrefixOf_iff_prefix] at h
          obtain ⟨tail, rfl⟩ := h.1
          rw [List.drop_left] at h
          obtain ⟨rest, rfl⟩ := h.2
          rw [ih, ← List.append_assoc, ← List.length_append, List.drop_left,
            List.prefix_append_right_inj]
      · next h =>
          refine ⟨nofun, fun hprefix => absurd ?_ h⟩
          obtain ⟨rest, rfl⟩ := hprefix
          rw [Bool.and_eq_true, List.isPrefixOf_iff_prefix,
            List.isPrefixOf_iff_prefix, List.append_assoc,
            List.append_assoc]
          refine ⟨List.prefix_append _ _, ?_⟩
          rw [List.drop_left]
          exact List.prefix_append _ _

theorem intercalate_cons (lineEnding first : List Char)
    (values : List (List Char)) :
    lineEnding.intercalate (first :: values) =
      first ++ values.flatMap (lineEnding ++ ·) := by
  induction values generalizing first with
  | nil => rw [List.intercalate_singleton, List.flatMap_nil, List.append_nil]
  | cons value values ih =>
      rw [List.intercalate_cons_cons, ih, List.flatMap_cons,
        List.append_assoc, List.append_assoc]

/-- Something more behind the saved values is not seen. -/
theorem contentsAreSaved_iff (lineEnding contents : List Char)
    (savedValues : List (List Char)) :
    contentsAreSaved lineEnding savedValues contents = true ↔
      if savedValues = [] then contents = []
      else joined lineEnding savedValues <+: contents := by
  unfold contentsAreSaved joined
  cases hrev : savedValues.reverse with
  | nil =>
      rw [if_pos (List.reverse_eq_nil_iff.mp hrev), List.isEmpty_iff]
  | cons first values =>
      have hne : savedValues ≠ [] := by
        rintro rfl
        cases hrev
      rw [if_neg hne, intercalate_cons]
      dsimp only
      split
      · next h =>
          obtain ⟨rest, rfl⟩ := List.isPrefixOf_iff_prefix.mp h
          rw [savedLoop_iff, List.drop_left, List.prefix_append_right_inj]
      · next h =>
          refine ⟨nofun, fun hprefix => absurd ?_ h⟩
          exact List.isPrefixOf_iff_prefix.mpr
            ((List.prefix_append _ _).trans hprefix)

/-- A clipboard is told from the saved values in every use of it, unless
it goes on behind them. -/
theorem clipboard_law (C : Clipboard) (savedValues : List (List Char))
    (contents : List Char) :
    ((contentsAreSaved C.nativeLineEnding savedValues contents = true ↔
        contents = joined C.nativeLineEnding savedValues) ∧
      (contents ≠ joined C.nativeLineEnding savedValues →
        (∀ type, readFromClipboard C (fun _ => .ok contents)
          (some savedValues) type = [contents]) ∧
        ∀ (self : Registers) (name : Char) (value : List Char)
          (historyLimit : Nat), name = '+' ∨ name = '*' →
          (self.inner.get name).getD [] = savedValues →
          self.push C (fun _ => .ok contents) historyLimit name value =
            ({ self with inner := self.inner.insert name savedValues },
              .error ("Failed to push to register " ++ name.toString ++
                ": clipboard does not match register contents")))) ↔
      (savedValues ≠ [] → ∀ more, more ≠ [] →
        contents ≠ joined C.nativeLineEnding savedValues ++ more) := by
  have hiff := contentsAreSaved_iff C.nativeLineEnding contents savedValues
  constructor
  · rintro ⟨h, -⟩ hne more hmore rfl
    rw [if_neg hne, h] at hiff
    exact hmore (List.append_right_eq_self.mp (hiff.mpr
      (List.prefix_append _ _)))
  · intro h
    have hsaved : contentsAreSaved C.nativeLineEnding savedValues contents =
        true ↔ contents = joined C.nativeLineEnding savedValues := by
      rw [hiff]
      split
      · next hnil =>
          rw [hnil]
          rfl
      · next hne =>
          refine ⟨fun ⟨more, hmore⟩ => ?_, fun heq => heq ▸ List.prefix_rfl⟩
          by_contra hcontents
          refine h hne more ?_ hmore.symm
          rintro rfl
          exact hcontents ((List.append_nil _).symm.trans hmore).symm
    refine ⟨hsaved, fun hne => ⟨fun type => ?_, ?_⟩⟩
    · unfold readFromClipboard
      exact if_neg fun htrue => hne (hsaved.mp htrue)
    · intro self name value historyLimit hname hget
      have hpush : ∀ type, self.pushClipboard C (fun _ => .ok contents) name
          value type =
            ({ self with inner := self.inner.insert name savedValues },
              .error ("Failed to push to register " ++ name.toString ++
                ": clipboard does not match register contents")) := by
        intro type
        unfold pushClipboard
        dsimp only
        rw [hget, if_neg fun htrue => hne (hsaved.mp htrue)]
      rcases hname with rfl | rfl
      · exact hpush .clipboard
      · exact hpush .selection

/-- Text that another program put behind a saved value is not pasted. -/
theorem not_clipboard_law :
    contentsAreSaved ['\n'] [['a']] ['a', 'b'] = true ∧
      joined ['\n'] [['a']] ≠ ['a', 'b'] ∧
      readFromClipboard ⟨fun _ _ => .ok (), ['\n']⟩ (fun _ => .ok ['a', 'b'])
        (some [['a']]) .clipboard = [['a']] := by
  decide

end Zmax.Registers
