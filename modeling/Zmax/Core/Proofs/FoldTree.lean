/-
Deleted and inserted lines leave the folds of the other lines alone.

A deletion does one thing to a fold and the next (`Deleted`), at every
level: lines above stay, lines below move up. An insertion pushes down what
is at a line or below it (`Inserted`), and folds around it grow.
-/
import Mathlib.Tactic.SplitIfs
import Zmax.Core.FoldTree

namespace Zmax.FoldTree

-- == going through

/-- Fold by fold, nested folds and later ones. -/
theorem forest_induction {P : List Fold → Prop} (nil : P [])
    (cons : ∀ f rest, P f.nested → P rest → P (f :: rest)) :
    ∀ folds, P folds
  | [] => nil
  | ⟨top, len, nested, flags, small⟩ :: rest =>
      cons ⟨top, len, nested, flags, small⟩ rest
        (forest_induction nil cons nested) (forest_induction nil cons rest)

@[simp] theorem depth_nil (line : Int) : depth [] line = 0 := by
  rw [depth]

theorem depth_cons (f : Fold) (rest : List Fold) (line : Int) :
    depth (f :: rest) line =
      (if f.top ≤ line ∧ line < f.stop then
        depth f.nested (line - f.top) + 1 else 0) + depth rest line := by
  obtain ⟨top, len, nested, flags, small⟩ := f
  rw [depth]
  rfl

@[simp] theorem wellFormed_nil : WellFormed [] := by
  rw [WellFormed]
  trivial

theorem wellFormed_cons (f : Fold) (rest : List Fold) :
    WellFormed (f :: rest) ↔
      0 < f.len ∧ (∀ g ∈ f.nested, g.stop ≤ f.len) ∧ WellFormed f.nested ∧
        (∀ g ∈ rest, f.stop ≤ g.top) ∧ WellFormed rest := by
  obtain ⟨top, len, nested, flags, small⟩ := f
  rw [WellFormed]
  rfl

theorem starts_cons (f : Fold) (rest : List Fold) (line : Int) :
    Starts (f :: rest) line ↔
      line = f.top ∨ Starts f.nested (line - f.top) ∨ Starts rest line := by
  obtain ⟨top, len, nested, flags, small⟩ := f
  rw [Starts]

variable {line : Int} {f g : Fold}

/-- Above its folds, a line is in none. -/
theorem depth_above {folds : List Fold} (h : ∀ f ∈ folds, line < f.top) :
    depth folds line = 0 := by
  induction folds with
  | nil => simp
  | cons f rest ih =>
      obtain ⟨hf, hrest⟩ := List.forall_mem_cons.mp h
      rw [depth_cons, if_neg (by omega), ih hrest]

/-- Below its folds, a line is in none. -/
theorem depth_below {folds : List Fold} (h : ∀ f ∈ folds, f.stop ≤ line) :
    depth folds line = 0 := by
  induction folds with
  | nil => simp
  | cons f rest ih =>
      obtain ⟨hf, hrest⟩ := List.forall_mem_cons.mp h
      rw [depth_cons, if_neg (by omega), ih hrest]

-- == deletion

variable {insertMode : Bool} {line1 line2 : Int} {folds : List Fold}

/-- What the deletion of some lines makes of a fold, if anything. -/
def deletedFold (line1 line2 : Int) (nested : Int → List Fold) (f : Fold) :
    List Fold :=
  if f.stop ≤ line1 then [f]
  else if f.top > line2 then
    [{ f with top := (f.top - (line2 - line1 + 1)).toNat }]
  else if f.top < line1 then
    if f.stop ≤ line2 + 1 then
      [{ f with len := (line1 - f.top).toNat, nested := nested (line1 - f.top) }]
    else
      [{ f with
        len := (f.len - (line2 - line1 + 1)).toNat
        nested := nested (line1 - f.top) }]
  else if f.stop ≤ line2 + 1 then []
  else
    [{ f with
      top := line1.toNat
      len := (f.len - (line2 - f.top + 1)).toNat
      nested := nested 0 }]

/-- The deletion of lines `line1` to `line2`. -/
def deleted (insertMode : Bool) (line1 line2 : Int) (folds : List Fold) :
    List Fold :=
  foldMarkAdjustRecurse line1 line2 MAXLNUM (-(line2 - line1 + 1)) insertMode
    folds

@[simp] theorem deleted_nil : deleted insertMode line1 line2 [] = [] := by
  rw [deleted, foldMarkAdjustRecurse]

theorem deleted_cons (h : line1 ≤ line2) (f : Fold) (rest : List Fold) :
    deleted insertMode line1 line2 (f :: rest) =
      deletedFold line1 line2
        (fun start => deleted insertMode start (line2 - f.top) f.nested) f ++
        deleted insertMode line1 line2 rest := by
  obtain ⟨top, len, nested, flags, small⟩ := f
  have hone : (MAXLNUM = 1) = False := by simp [MAXLNUM]
  have hafter : (-(line2 - line1 + 1) = 0) = False := by simp; omega
  have hshift : (top : Int) + -(line2 - line1 + 1) =
      top - (line2 - line1 + 1) := by omega
  have hlen : (len : Int) + -(line2 - line1 + 1) =
      len - (line2 - line1 + 1) := by omega
  have hnested : -(line2 - line1 + 1) =
      -(line2 - top - (line1 - top) + 1) := by omega
  have hnested₀ : -(line2 - line1 + 1) + ((top : Int) - line1) =
      -(line2 - top - 0 + 1) := by omega
  simp only [deleted, deletedFold, Fold.stop]
  rw [foldMarkAdjustRecurse]
  simp only [hone, hafter, false_and, and_false, if_false, if_true]
  rw [hshift, hlen, ← hnested, hnested₀]
  by_cases h₁ : ((top + len : Nat) : Int) ≤ line1
  · have hlast : (top : Int) + len - 1 < line1 := by omega
    simp only [hlast, h₁, if_true]
    rfl
  have h₁' : ¬ (top : Int) + len - 1 < line1 := by omega
  simp only [h₁, h₁', if_false]
  by_cases h₆ : (top : Int) > line2
  · simp only [h₆, if_true]
    rfl
  simp only [h₆, if_false]
  by_cases h₅ : ((top + len : Nat) : Int) ≤ line2 + 1
  · have hlast : (top : Int) + len - 1 ≤ line2 := by omega
    by_cases h₂ : (top : Int) < line1
    · have h₄ : ¬ (top : Int) ≥ line1 := by omega
      simp only [h₂, h₄, h₅, hlast, if_true, if_false, false_and]
      rfl
    · have h₄ : (top : Int) ≥ line1 := by omega
      simp only [h₂, h₄, h₅, hlast, if_true, if_false, and_self]
      rfl
  · have hlast : ¬ (top : Int) + len - 1 ≤ line2 := by omega
    simp only [hlast, h₅, and_false, if_false]
    by_cases h₂ : (top : Int) < line1
    · simp only [h₂, if_true]
      rfl
    · simp only [h₂, if_false]
      rfl

/-- Where the place in front of a line gets, when lines are deleted. -/
def shift (line1 line2 place : Int) : Int :=
  if place ≤ line1 then place else max line1 (place - (line2 - line1 + 1))

theorem shift_mono {p q : Int} (h : p ≤ q) :
    shift line1 line2 p ≤ shift line1 line2 q := by
  unfold shift
  split_ifs
  · exact h
  · omega
  · omega
  · omega

/-- A fold is gone, or its ends are shifted; its nested folds change when a
deleted line is in it. -/
theorem deletedFold_cases {nested : Int → List Fold} (h : line1 ≤ line2)
    (h₀ : 0 ≤ line1) (hf : 0 < f.len) :
    (deletedFold line1 line2 nested f = [] ∧
        line1 ≤ f.top ∧ f.stop ≤ line2 + 1) ∨
      ∃ g, deletedFold line1 line2 nested f = [g] ∧
        0 < g.len ∧ g.top = shift line1 line2 f.top ∧
        g.stop = shift line1 line2 f.stop ∧
        (g.nested = f.nested ∧ g.len = f.len ∧
            (f.stop ≤ line1 ∨ line2 < f.top) ∨
          g.nested = nested (max 0 (line1 - f.top)) ∧
            line1 < f.stop ∧ f.top ≤ line2) := by
  have hstop : (f.stop : Int) = f.top + f.len := by simp [Fold.stop]
  unfold deletedFold shift
  by_cases h₁ : (f.stop : Int) ≤ line1
  · refine .inr ⟨f, if_pos h₁, hf, ?_, ?_, .inl ⟨rfl, rfl, .inl h₁⟩⟩
    · rw [if_pos (by omega)]
    · rw [if_pos h₁]
  rw [if_neg h₁]
  by_cases h₆ : (f.top : Int) > line2
  · refine .inr ⟨_, if_pos h₆, hf, ?_, ?_, .inl ⟨rfl, rfl, .inr h₆⟩⟩
    · rw [if_neg (by omega)]
      simp only
      omega
    · rw [if_neg h₁]
      simp only [Fold.stop]
      omega
  rw [if_neg h₆]
  by_cases h₂ : (f.top : Int) < line1
  · have hmax : max 0 (line1 - f.top) = line1 - f.top := by omega
    rw [if_pos h₂, hmax]
    by_cases hlast : (f.stop : Int) ≤ line2 + 1
    · refine .inr ⟨_, if_pos hlast, ?_, ?_, ?_,
        .inr ⟨rfl, by omega, by omega⟩⟩
      · simp only
        omega
      · rw [if_pos (by omega)]
      · rw [if_neg h₁]
        simp only [Fold.stop]
        omega
    · refine .inr ⟨_, if_neg hlast, ?_, ?_, ?_,
        .inr ⟨rfl, by omega, by omega⟩⟩
      · simp only
        omega
      · rw [if_pos (by omega)]
      · rw [if_neg h₁]
        simp only [Fold.stop]
        omega
  · rw [if_neg h₂]
    by_cases hlast : (f.stop : Int) ≤ line2 + 1
    · exact .inl ⟨if_pos hlast, by omega, hlast⟩
    · have hmax : max 0 (line1 - f.top) = 0 := by omega
      rw [hmax]
      refine .inr ⟨_, if_neg hlast, ?_, ?_, ?_,
        .inr ⟨rfl, by omega, by omega⟩⟩
      · simp only
        omega
      · simp only
        split_ifs
        · omega
        · omega
      · rw [if_neg h₁]
        simp only [Fold.stop]
        omega

theorem depth_append (xs ys : List Fold) (line : Int) :
    depth (xs ++ ys) line = depth xs line + depth ys line := by
  induction xs with
  | nil => simp
  | cons f rest ih =>
      rw [List.cons_append, depth_cons, depth_cons, ih, Nat.add_assoc]

/-- The lines that are left keep their depth. -/
theorem depth_deleted (h : line1 ≤ line2) (h₀ : 0 ≤ line1)
    (hfolds : WellFormed folds) (line : Int) :
    depth (deleted insertMode line1 line2 folds) line =
      depth folds
        (if line < line1 then line else line + (line2 - line1 + 1)) := by
  induction folds using forest_induction generalizing line1 line2 line with
  | nil => simp
  | cons f rest ihnested ihrest =>
      obtain ⟨hf, -, hnested, -, hrest⟩ := (wellFormed_cons f rest).mp hfolds
      rw [deleted_cons h, depth_append, ihrest h h₀ hrest, depth_cons]
      refine congrArg (· + _) ?_
      have hstop : (f.stop : Int) = f.top + f.len := by simp [Fold.stop]
      rcases deletedFold_cases h h₀ hf with
        ⟨hgone, h₁, h₂⟩ | ⟨g, hg, hglen, hgtop, hgstop, hcase⟩
      · rw [hgone, depth_nil, if_neg]
        split_ifs
        · omega
        · omega
      · rw [hg, depth_cons, depth_nil, Nat.add_zero, hgtop, hgstop]
        generalize hk : (if line < line1 then line
          else line + (line2 - line1 + 1)) = k
        have hin : shift line1 line2 f.top ≤ line ∧
            line < shift line1 line2 f.stop ↔ f.top ≤ k ∧ k < f.stop := by
          subst hk
          unfold shift
          split_ifs <;> omega
        by_cases hline : f.top ≤ k ∧ k < f.stop
        · rw [if_pos (hin.mpr hline), if_pos hline]
          refine congrArg (· + 1) ?_
          rcases hcase with ⟨hnested', -, hout⟩ | ⟨hnested', h₁, h₂⟩
          · rw [hnested']
            congr 1
            subst hk
            unfold shift
            split_ifs at hline ⊢ <;> omega
          · rw [hnested', ihnested (by omega) (by omega) hnested]
            congr 1
            subst hk
            unfold shift
            split_ifs at hline ⊢ <;> omega
        · rw [if_neg (mt hin.mp hline), if_neg hline]

/-- What is left of the folds is where the deletion shifts it. -/
theorem mem_deleted (h : line1 ≤ line2) (h₀ : 0 ≤ line1)
    (hfolds : WellFormed folds)
    (hg : g ∈ deleted insertMode line1 line2 folds) :
    ∃ f ∈ folds, g.top = shift line1 line2 f.top ∧
      g.stop = shift line1 line2 f.stop := by
  induction folds with
  | nil => simp at hg
  | cons f rest ih =>
      obtain ⟨hf, -, -, -, hrest⟩ := (wellFormed_cons f rest).mp hfolds
      rw [deleted_cons h, List.mem_append] at hg
      rcases hg with hg | hg
      · rcases deletedFold_cases h h₀ hf with
          ⟨hgone, -⟩ | ⟨g', hg', -, htop, hstop, -⟩
        · rw [hgone] at hg
          cases hg
        · rw [hg', List.mem_singleton] at hg
          subst hg
          exact ⟨f, List.mem_cons_self, htop, hstop⟩
      · obtain ⟨f', hf', hplace⟩ := ih hrest hg
        exact ⟨f', List.mem_cons_of_mem _ hf', hplace⟩

theorem wellFormed_deleted (h : line1 ≤ line2) (h₀ : 0 ≤ line1)
    (hfolds : WellFormed folds) :
    WellFormed (deleted insertMode line1 line2 folds) := by
  induction folds using forest_induction generalizing line1 line2 with
  | nil => simp
  | cons f rest ihnested ihrest =>
      obtain ⟨hf, hinside, hnested, hsorted, hrest⟩ :=
        (wellFormed_cons f rest).mp hfolds
      have hstop : (f.stop : Int) = f.top + f.len := by simp [Fold.stop]
      rw [deleted_cons h]
      rcases deletedFold_cases h h₀ hf with
        ⟨hgone, -⟩ | ⟨g, hg, hglen, hgtop, hgstop, hcase⟩
      · rw [hgone]
        exact ihrest h h₀ hrest
      · rw [hg, List.singleton_append, wellFormed_cons]
        have hlater : ∀ g' ∈ deleted insertMode line1 line2 rest,
            g.stop ≤ g'.top := by
          intro g' hg'
          obtain ⟨f', hf', htop', -⟩ := mem_deleted h h₀ hrest hg'
          have := @shift_mono line1 line2 _ _
            (Int.ofNat_le.mpr (hsorted f' hf'))
          omega
        rcases hcase with ⟨hnested', hlen', -⟩ | ⟨hnested', h₁, h₂⟩
        · rw [hnested', hlen']
          exact ⟨hf, hinside, hnested, hlater, ihrest h h₀ hrest⟩
        · rw [hnested']
          refine ⟨hglen, fun g' hg' => ?_, ihnested (by omega) (by omega)
            hnested, hlater, ihrest h h₀ hrest⟩
          obtain ⟨f', hf', -, hstop'⟩ :=
            mem_deleted (by omega) (by omega) hnested hg'
          have hle := hinside f' hf'
          have hgstop' : (g.stop : Int) = g.top + g.len := by simp [Fold.stop]
          have hshift : shift (max 0 (line1 - f.top)) (line2 - f.top) f'.stop ≤
              shift line1 line2 f.stop - shift line1 line2 f.top := by
            unfold shift
            split_ifs <;> omega
          omega

-- == insertion

variable {amount amountAfter : Int}

/-- What the insertion of lines at a place makes of a fold: pushed down from
`top` on, else grown if the place is in it. -/
def insertedFold (place top amount : Int) (nested : List Fold) (f : Fold) :
    Fold :=
  if f.stop ≤ place then f
  else if f.top ≥ top then { f with top := (f.top + amount).toNat }
  else { f with len := (f.len + amount).toNat, nested }

theorem inserted_cons {rest : List Fold} (hamount : amount ≠ MAXLNUM)
    (hstop : f.stop ≤ line2 + 1) (hf : 0 < f.len) :
    foldMarkAdjustRecurse line1 line2 amount amountAfter insertMode (f :: rest) =
      insertedFold line1
        (if insertMode ∧ amount = 1 ∧ line2 = MAXLNUM then line1 + 1 else line1)
        amount (foldMarkAdjustRecurse (line1 - f.top) (line2 - f.top) amount
          amountAfter insertMode f.nested) f ::
        foldMarkAdjustRecurse line1 line2 amount amountAfter insertMode rest := by
  obtain ⟨top, len, nested, flags, small⟩ := f
  simp only [Fold.stop, insertedFold] at hstop hf ⊢
  rw [foldMarkAdjustRecurse]
  have hlast : (top : Int) + len - 1 ≤ line2 := by omega
  have htop : ¬ (top : Int) > line2 := by omega
  simp only [hlast, htop, hamount, and_true, if_true, if_false]
  by_cases h₁ : ((top + len : Nat) : Int) ≤ line1
  · have h₁' : (top : Int) + len - 1 < line1 := by omega
    simp only [h₁, h₁', if_true]
  have h₁' : ¬ (top : Int) + len - 1 < line1 := by omega
  simp only [h₁, h₁', if_false]
  generalize (if insertMode ∧ amount = 1 ∧ line2 = MAXLNUM then line1 + 1
    else line1) = start
  by_cases h₄ : (top : Int) ≥ start
  · simp only [h₄, if_true]
  · have h₂ : (top : Int) < start := by omega
    simp only [h₄, h₂, if_true, if_false]

/-- A fold stays, is pushed down, or grows. -/
theorem insertedFold_cases {top : Int} {nested : List Fold}
    (hpos : 0 < amount) (hg : insertedFold line1 top amount nested f = g) :
    (g = f ∧ f.stop ≤ line1) ∨
      ((g.top : Int) = f.top + amount ∧ (g.stop : Int) = f.stop + amount ∧
        g.len = f.len ∧ g.nested = f.nested ∧ line1 < f.stop ∧ top ≤ f.top) ∨
      (g.top = f.top ∧ (g.stop : Int) = f.stop + amount ∧ g.nested = nested ∧
        line1 < f.stop ∧ f.top < top) := by
  subst hg
  unfold insertedFold
  by_cases h₁ : (f.stop : Int) ≤ line1
  · exact .inl ⟨if_pos h₁, h₁⟩
  rw [if_neg h₁]
  by_cases h₄ : (f.top : Int) ≥ top
  · rw [if_pos h₄]
    refine .inr (.inl ⟨?_, ?_, rfl, rfl, by omega, h₄⟩)
    · simp only
      omega
    · simp only [Fold.stop]
      omega
  · rw [if_neg h₄]
    refine .inr (.inr ⟨rfl, ?_, rfl, by omega, by omega⟩)
    simp only [Fold.stop]
    omega

/-- How many folds a line is in together with the line above it. -/
def through : List Fold → Int → Nat
  | [], _ => 0
  | ⟨top, len, nested, _, _⟩ :: rest, line =>
      (if top < line ∧ line < top + len then through nested (line - top) + 1
        else 0) + through rest line

theorem through_cons (f : Fold) (rest : List Fold) (line : Int) :
    through (f :: rest) line =
      (if f.top < line ∧ line < f.stop then
        through f.nested (line - f.top) + 1 else 0) + through rest line := by
  obtain ⟨top, len, nested, flags, small⟩ := f
  rw [through]
  rfl

/-- The depth of a line behind the insertion, by where it was before; the
first new line is in the folds around the place. -/
def depthPushed (place amount : Int) (folds : List Fold) (line : Int) : Nat :=
  if line < place then depth folds line
  else if line = place then through folds line
  else depth folds (line - amount)

theorem depthPushed_cons (f : Fold) (rest : List Fold) (line : Int) :
    depthPushed line1 amount (f :: rest) line =
      (if line < line1 then
        if f.top ≤ line ∧ line < f.stop then
          depth f.nested (line - f.top) + 1 else 0
      else if line = line1 then
        if f.top < line ∧ line < f.stop then
          through f.nested (line - f.top) + 1 else 0
      else if f.top ≤ line - amount ∧ line - amount < f.stop then
        depth f.nested (line - amount - f.top) + 1 else 0) +
        depthPushed line1 amount rest line := by
  unfold depthPushed
  by_cases habove : line < line1
  · rw [if_pos habove, if_pos habove, if_pos habove, depth_cons]
  · rw [if_neg habove, if_neg habove, if_neg habove]
    by_cases hat : line = line1
    · rw [if_pos hat, if_pos hat, if_pos hat, through_cons]
    · rw [if_neg hat, if_neg hat, if_neg hat, depth_cons]

/-- Lines above the place and lines that are pushed down keep their depth. -/
theorem depth_pushed (hamount : amount ≠ MAXLNUM) (hpos : 0 < amount)
    (hplain : ¬ (insertMode = true ∧ amount = 1) ∨ line2 < MAXLNUM)
    (hfolds : WellFormed folds) (hend : ∀ f ∈ folds, f.stop ≤ line2 + 1)
    (hline : line ≤ line1 ∨ line1 + amount ≤ line) :
    depth (foldMarkAdjustRecurse line1 line2 amount amountAfter insertMode
      folds) line = depthPushed line1 amount folds line := by
  induction folds using forest_induction generalizing line1 line2 line with
  | nil => simp [foldMarkAdjustRecurse, depthPushed, through]
  | cons f rest ihnested ihrest =>
      obtain ⟨hf, hinside, hnested, -, hrest⟩ :=
        (wellFormed_cons f rest).mp hfolds
      obtain ⟨hfend, hrestend⟩ := List.forall_mem_cons.mp hend
      have hstop : (f.stop : Int) = f.top + f.len := by simp [Fold.stop]
      have htop : (if insertMode ∧ amount = 1 ∧ line2 = MAXLNUM then line1 + 1
          else line1) = line1 := by
        refine if_neg fun h => ?_
        rcases hplain with hplain | hplain
        · exact hplain ⟨h.1, h.2.1⟩
        · omega
      rw [inserted_cons hamount hfend hf, htop, depth_cons,
        ihrest hplain hrest hrestend hline, depthPushed_cons]
      refine congrArg (· + _) ?_
      have hinner : ∀ inner : Int, inner ≤ line1 - f.top ∨
          line1 - f.top + amount ≤ inner →
            depth (foldMarkAdjustRecurse (line1 - f.top) (line2 - f.top) amount
              amountAfter insertMode f.nested) inner =
              depthPushed (line1 - f.top) amount f.nested inner := by
        refine fun inner => ihnested ?_ hnested fun g hg => ?_
        · exact hplain.imp_right fun h => by omega
        · have := hinside g hg
          omega
      generalize hg : insertedFold line1 line1 amount _ f = g
      rcases insertedFold_cases hpos hg with ⟨rfl, h₁⟩ |
        ⟨htop', hstop', -, hnested', h₁, h₂⟩ | ⟨htop', hstop', hnested', h₁, h₂⟩
      · split_ifs <;> omega
      · have hback : line - amount - f.top = line - (f.top + amount) := by omega
        rw [htop', hstop', hnested', hback]
        split_ifs <;> omega
      · have hback : line - f.top - amount = line - amount - f.top := by omega
        rw [htop', hstop', hnested', hinner _ (by omega)]
        unfold depthPushed
        rw [hback]
        split_ifs <;> omega

theorem mem_inserted (hamount : amount ≠ MAXLNUM) (hfolds : WellFormed folds)
    (hend : ∀ f ∈ folds, f.stop ≤ line2 + 1)
    (hg : g ∈ foldMarkAdjustRecurse line1 line2 amount amountAfter insertMode
      folds) :
    ∃ f ∈ folds, ∃ nested, insertedFold line1
      (if insertMode ∧ amount = 1 ∧ line2 = MAXLNUM then line1 + 1 else line1)
      amount nested f = g := by
  induction folds with
  | nil => simp [foldMarkAdjustRecurse] at hg
  | cons f rest ih =>
      obtain ⟨hf, -, -, -, hrest⟩ := (wellFormed_cons f rest).mp hfolds
      obtain ⟨hfend, hrestend⟩ := List.forall_mem_cons.mp hend
      rw [inserted_cons hamount hfend hf, List.mem_cons] at hg
      rcases hg with rfl | hg
      · exact ⟨f, List.mem_cons_self, _, rfl⟩
      · obtain ⟨f', hf', hplace⟩ := ih hrest hrestend hg
        exact ⟨f', List.mem_cons_of_mem _ hf', hplace⟩

theorem wellFormed_inserted (hamount : amount ≠ MAXLNUM) (hpos : 0 < amount)
    (hfolds : WellFormed folds) (hend : ∀ f ∈ folds, f.stop ≤ line2 + 1) :
    WellFormed (foldMarkAdjustRecurse line1 line2 amount amountAfter insertMode
      folds) := by
  induction folds using forest_induction generalizing line1 line2 with
  | nil => simp [foldMarkAdjustRecurse]
  | cons f rest ihnested ihrest =>
      obtain ⟨hf, hinside, hnested, hsorted, hrest⟩ :=
        (wellFormed_cons f rest).mp hfolds
      obtain ⟨hfend, hrestend⟩ := List.forall_mem_cons.mp hend
      have hstop : (f.stop : Int) = f.top + f.len := by simp [Fold.stop]
      have hfit : ∀ g ∈ f.nested, (g.stop : Int) ≤ line2 - f.top + 1 := by
        intro g hg
        have := hinside g hg
        omega
      have hinner := @ihnested (line1 - f.top) _ hnested hfit
      rw [inserted_cons hamount hfend hf]
      generalize hg : insertedFold line1 _ amount _ f = g
      rw [wellFormed_cons]
      have hgstop : (g.stop : Int) = g.top + g.len := by simp [Fold.stop]
      refine ⟨?_, ?_, ?_, fun g' hg' => ?_, ihrest hrest hrestend⟩
      · rcases insertedFold_cases hpos hg with ⟨rfl, -⟩ |
          ⟨-, -, hlen', -⟩ | ⟨htop', hstop', -⟩
        · exact hf
        · omega
        · omega
      · rcases insertedFold_cases hpos hg with ⟨rfl, -⟩ |
          ⟨-, -, hlen', hnested', -⟩ | ⟨htop', hstop', hnested', -⟩
        · exact hinside
        · rw [hlen', hnested']
          exact hinside
        · rw [hnested']
          intro h hh
          obtain ⟨h', hh', _, hplace⟩ := mem_inserted hamount hnested hfit hh
          have hle := hinside h' hh'
          rcases insertedFold_cases hpos hplace with ⟨rfl, -⟩ |
            ⟨-, hstop'', -⟩ | ⟨-, hstop'', -⟩
          · omega
          · omega
          · omega
      · rcases insertedFold_cases hpos hg with ⟨rfl, -⟩ |
          ⟨-, -, -, hnested', -⟩ | ⟨-, -, hnested', -⟩
        · exact hnested
        · rw [hnested']
          exact hnested
        · rw [hnested']
          exact hinner
      · obtain ⟨f', hf', _, hplace⟩ := mem_inserted hamount hrest hrestend hg'
        have hle := hsorted f' hf'
        have hstop' : (f'.stop : Int) = f'.top + f'.len := by simp [Fold.stop]
        have hlow : line1 ≤ (if insertMode ∧ amount = 1 ∧ line2 = MAXLNUM
            then line1 + 1 else line1) ∧ (if insertMode ∧ amount = 1 ∧
              line2 = MAXLNUM then line1 + 1 else line1) ≤ line1 + 1 := by
          split_ifs <;> omega
        rcases insertedFold_cases hpos hg with ⟨rfl, h₁⟩ |
          ⟨h₁, h₂, -, -, h₃, h₄⟩ | ⟨h₁, h₂, -, h₃, h₄⟩
        · rcases insertedFold_cases hpos hplace with ⟨rfl, -⟩ |
            ⟨h₂, -⟩ | ⟨h₂, -⟩
          · exact hle
          · omega
          · omega
        · rcases insertedFold_cases hpos hplace with ⟨rfl, h₅⟩ |
            ⟨h₅, -⟩ | ⟨-, -, -, -, h₅⟩
          · omega
          · omega
          · omega
        · rcases insertedFold_cases hpos hplace with ⟨rfl, h₅⟩ |
            ⟨h₅, -⟩ | ⟨-, -, -, -, h₅⟩
          · omega
          · omega
          · omega

-- == in Insert mode

/-- A fold that starts at a line is below a fold the line is in. -/
theorem starts_within (hfolds : WellFormed folds) (h : Starts folds line) :
    ∃ f ∈ folds, f.top ≤ line ∧ line < f.stop := by
  induction folds using forest_induction generalizing line with
  | nil => rw [Starts] at h; exact h.elim
  | cons f rest ihnested ihrest =>
      obtain ⟨hf, hinside, hnested, -, hrest⟩ :=
        (wellFormed_cons f rest).mp hfolds
      have hstop : (f.stop : Int) = f.top + f.len := by simp [Fold.stop]
      rcases (starts_cons f rest line).mp h with h | h | h
      · exact ⟨f, List.mem_cons_self, by omega, by omega⟩
      · obtain ⟨g, hg, h₁, h₂⟩ := ihnested hnested h
        have := hinside g hg
        exact ⟨f, List.mem_cons_self, by omega, by omega⟩
      · obtain ⟨g, hg, hin⟩ := ihrest hrest h
        exact ⟨g, List.mem_cons_of_mem _ hg, hin⟩

theorem not_starts_nested {f : Fold} {line : Int} (hnested : WellFormed f.nested)
    (hinside : ∀ g ∈ f.nested, g.stop ≤ f.len)
    (hout : line < f.top ∨ f.stop ≤ line) :
    ¬ Starts f.nested (line - f.top) := by
  intro h
  obtain ⟨g, hg, h₁, h₂⟩ := starts_within hnested h
  have := hinside g hg
  have hstop : (f.stop : Int) = f.top + f.len := by simp [Fold.stop]
  omega

/-- A line is in as many folds as with the line above it, just when no fold
starts there. -/
theorem through_eq_iff {line : Int} (hfolds : WellFormed folds) :
    through folds line ≤ depth folds line ∧
      (through folds line = depth folds line ↔ ¬ Starts folds line) := by
  induction folds using forest_induction generalizing line with
  | nil => simp [through, Starts]
  | cons f rest ihnested ihrest =>
      obtain ⟨hf, hinside, hnested, -, hrest⟩ :=
        (wellFormed_cons f rest).mp hfolds
      have hstop : (f.stop : Int) = f.top + f.len := by simp [Fold.stop]
      obtain ⟨hle, heq⟩ := @ihrest line hrest
      obtain ⟨hle', heq'⟩ := @ihnested (line - f.top) hnested
      rw [through_cons, depth_cons, starts_cons, not_or, not_or, ← heq, ← heq']
      by_cases hin : f.top ≤ line ∧ line < f.stop
      · rw [if_pos hin]
        by_cases hat : line = f.top
        · rw [if_neg (by omega)]
          omega
        · rw [if_pos (by omega)]
          omega
      · have hnot := heq'.mpr (not_starts_nested hnested hinside (by omega))
        rw [if_neg hin, if_neg (by omega)]
        omega

theorem nestedStarts_cons (f : Fold) (rest : List Fold) (line : Int) :
    NestedStarts (f :: rest) line ↔
      Starts f.nested (line - f.top) ∨ NestedStarts rest line := by
  simp [NestedStarts]

/-- The line above a line inserted in Insert mode. -/
theorem depth_insertMode_at (hfolds : WellFormed folds)
    (hend : ∀ f ∈ folds, 0 < f.top ∧ f.stop ≤ MAXLNUM + 1) :
    depth (foldMarkAdjustRecurse line1 MAXLNUM 1 amountAfter true folds)
        line1 ≤ depth folds line1 ∧
      (depth (foldMarkAdjustRecurse line1 MAXLNUM 1 amountAfter true folds)
        line1 = depth folds line1 ↔ ¬ NestedStarts folds line1) := by
  have hone : (1 : Int) ≠ MAXLNUM := by simp [MAXLNUM]
  induction folds with
  | nil => simp [foldMarkAdjustRecurse, NestedStarts]
  | cons f rest ih =>
      obtain ⟨hf, hinside, hnested, -, hrest⟩ :=
        (wellFormed_cons f rest).mp hfolds
      obtain ⟨⟨hftop, hfend⟩, hrestend⟩ := List.forall_mem_cons.mp hend
      have hstop : (f.stop : Int) = f.top + f.len := by simp [Fold.stop]
      obtain ⟨hle, heq⟩ := ih hrest hrestend
      rw [inserted_cons hone hfend hf, if_pos ⟨rfl, rfl, rfl⟩,
        nestedStarts_cons, depth_cons, depth_cons, not_or, ← heq]
      generalize hg : insertedFold line1 (line1 + 1) 1 _ f = g
      rcases insertedFold_cases Int.one_pos hg with ⟨rfl, h₁⟩ |
        ⟨h₁, h₂, -, -, h₃, h₄⟩ | ⟨h₁, h₂, hnested', h₃, h₄⟩
      · have hnot := not_starts_nested hnested hinside (.inr h₁)
        rw [if_neg (by omega), Nat.zero_add, Nat.zero_add]
        exact ⟨hle, fun h => ⟨hnot, h⟩, And.right⟩
      · have hnot := @not_starts_nested f line1 hnested hinside
          (.inl (by omega))
        rw [if_neg (by omega), if_neg (by omega), Nat.zero_add, Nat.zero_add]
        exact ⟨hle, fun h => ⟨hnot, h⟩, And.right⟩
      · obtain ⟨hle', heq'⟩ := @through_eq_iff f.nested (line1 - f.top) hnested
        rw [if_pos (by omega), if_pos (by omega), hnested', h₁,
          depth_pushed hone Int.one_pos (.inr (by omega)) hnested
            (fun g' hg' => by have := hinside g' hg'; omega)
            (.inl (Int.le_refl _)), depthPushed,
          if_neg (by omega), if_pos rfl, ← heq']
        omega

/-- The other lines. -/
theorem depth_insertMode (hfolds : WellFormed folds)
    (hend : ∀ f ∈ folds, 0 < f.top ∧ f.stop ≤ MAXLNUM + 1)
    (hline : line < line1 ∨ line1 + 1 < line) :
    depth (foldMarkAdjustRecurse line1 MAXLNUM 1 amountAfter true folds) line =
      depth folds (if line < line1 then line else line - 1) := by
  have hone : (1 : Int) ≠ MAXLNUM := by simp [MAXLNUM]
  induction folds with
  | nil => simp [foldMarkAdjustRecurse]
  | cons f rest ih =>
      obtain ⟨hf, hinside, hnested, -, hrest⟩ :=
        (wellFormed_cons f rest).mp hfolds
      obtain ⟨⟨hftop, hfend⟩, hrestend⟩ := List.forall_mem_cons.mp hend
      have hstop : (f.stop : Int) = f.top + f.len := by simp [Fold.stop]
      rw [inserted_cons hone hfend hf, if_pos ⟨rfl, rfl, rfl⟩, depth_cons,
        depth_cons, ih hrest hrestend]
      refine congrArg (· + _) ?_
      have hinner : ∀ inner : Int, inner ≤ line1 - f.top ∨
          line1 - f.top + 1 ≤ inner →
            depth (foldMarkAdjustRecurse (line1 - f.top) (MAXLNUM - f.top) 1
              amountAfter true f.nested) inner =
              depthPushed (line1 - f.top) 1 f.nested inner := by
        refine fun inner => depth_pushed hone Int.one_pos (.inr (by omega))
          hnested fun g' hg' => ?_
        have := hinside g' hg'
        omega
      generalize hg : insertedFold line1 (line1 + 1) 1 _ f = g
      rcases insertedFold_cases Int.one_pos hg with ⟨rfl, h₁⟩ |
        ⟨h₁, h₂, -, hnested', h₃, h₄⟩ | ⟨h₁, h₂, hnested', h₃, h₄⟩
      · split_ifs <;> omega
      · have hback : line - (f.top + 1) = line - 1 - f.top := by omega
        rw [h₁, h₂, hnested', hback]
        split_ifs <;> omega
      · have hback : line - f.top - 1 = line - 1 - f.top := by omega
        rw [h₁, h₂, hnested', hinner _ (by omega)]
        unfold depthPushed
        rw [hback]
        split_ifs <;> omega

-- == the two edits

theorem foldMarkAdjust_inserted (hline : line ≤ MAXLNUM)
    (hamount : amount ≠ MAXLNUM) :
    foldMarkAdjust folds line MAXLNUM amount amountAfter insertMode =
      foldMarkAdjustRecurse
        (if insertMode ∧ amount = 1 then line - 1 else line) MAXLNUM amount
        amountAfter insertMode folds := by
  have hle : ¬ MAXLNUM < line := by omega
  rw [foldMarkAdjust]
  simp only [hamount, hle, false_and, and_true, if_false]

/-- Folds stay well formed, and lines that are left keep their depth: when
lines are deleted, and when lines are inserted, unless one is inserted in
Insert mode below the first line of a nested fold. -/
theorem fold_mark_adjust (folds : List Fold) (h : WellFormed folds)
    (insertMode : Bool) :
    (∀ line1 line2 : Nat, line1 ≤ line2 →
      ∀ after, foldMarkAdjust folds line1 line2 MAXLNUM
          (-(line2 - line1 + 1)) insertMode = after →
        WellFormed after ∧
        (∀ line : Nat, line < line1 → depth after line = depth folds line) ∧
        ∀ line : Nat, line2 < line →
          depth after (line - (line2 - line1 + 1)) = depth folds line) ∧
    (∀ line n : Nat, line ≤ MAXLNUM → 0 < n → n ≠ MAXLNUM →
      (∀ f ∈ folds, 0 < f.top ∧ f.stop ≤ MAXLNUM + 1) →
      ∀ amountAfter after, foldMarkAdjust folds line MAXLNUM n amountAfter
          insertMode = after →
        WellFormed after ∧
        ((∀ k : Nat, depth after (if k < line then k else k + n) =
            depth folds k) ↔
          ¬ (insertMode = true ∧ n = 1 ∧ NestedStarts folds (line - 1)))) := by
  refine ⟨fun line1 line2 hle after hafter => ?_,
    fun line n hline hpos hamount hend amountAfter after hafter => ?_⟩
  · have hdeleted : deleted insertMode line1 line2 folds = after := by
      have hone : (MAXLNUM = 1) = False := by simp [MAXLNUM]
      rw [← hafter, foldMarkAdjust, deleted]
      simp only [hone, false_and, and_false, if_false]
      rw [if_neg (by omega), if_neg (by omega)]
    subst hdeleted
    refine ⟨wellFormed_deleted (by omega) (by omega) h, fun line hline => ?_,
      fun line hline => ?_⟩
    · rw [depth_deleted (by omega) (by omega) h, if_pos (by omega)]
    · rw [depth_deleted (by omega) (by omega) h, if_neg (by omega)]
      congr 1
      omega
  · have hstop : ∀ f ∈ folds, f.stop ≤ MAXLNUM + 1 := fun f hf => (hend f hf).2
    rw [foldMarkAdjust_inserted hline hamount] at hafter
    by_cases hinsert : insertMode = true ∧ (n : Int) = 1
    · rw [if_pos hinsert] at hafter
      obtain ⟨rfl, hn⟩ := hinsert
      obtain rfl : n = 1 := by omega
      subst hafter
      refine ⟨wellFormed_inserted hamount (by omega) h hstop, ?_⟩
      obtain ⟨-, heq⟩ := @depth_insertMode_at (line - 1) folds amountAfter
        h hend
      simp only [true_and, ← heq]
      constructor
      · intro hkeep
        by_cases hzero : line = 0
        · rw [depth_above (fun f _ => by omega),
            depth_above (fun f _ => by omega)]
        · have habove := hkeep (line - 1)
          rwa [if_pos (by omega),
            show ((line - 1 : Nat) : Int) = line - 1 from by omega] at habove
      · intro hat k
        by_cases hk : k < line
        · rw [if_pos hk]
          by_cases habove : (k : Int) = line - 1
          · rw [habove]
            exact hat
          · exact (depth_insertMode h hend (by omega)).trans
              (by rw [if_pos (by omega)])
        · rw [if_neg hk]
          refine (depth_insertMode h hend (by omega)).trans ?_
          rw [if_neg (by omega)]
          congr 1
          omega
    · rw [if_neg hinsert] at hafter
      subst hafter
      refine ⟨wellFormed_inserted hamount (by omega) h hstop,
        fun _ hnested => hinsert ⟨hnested.1, by omega⟩, fun _ k => ?_⟩
      by_cases hk : k < line
      · rw [if_pos hk, depth_pushed hamount (by omega) (.inl hinsert) h hstop
          (by omega), depthPushed, if_pos (by omega)]
      · rw [if_neg hk, depth_pushed hamount (by omega) (.inl hinsert) h hstop
          (by omega), depthPushed, if_neg (by omega), if_neg (by omega),
          Int.add_sub_cancel]

/-- A fold of lines 2 to 7, in it lines 4 to 6. -/
def sampleFolds : List Fold :=
  [⟨2, 6, [⟨2, 3, [], .level, .none⟩], .level, .none⟩]

theorem wellFormed_sampleFolds : WellFormed sampleFolds := by
  simp [sampleFolds, wellFormed_cons, Fold.stop]

/-- Lines 3 to 5 of the sample are deleted, or two lines inserted at 4. -/
theorem fold_mark_adjust_sample :
    (∃ after, foldMarkAdjust sampleFolds 3 5 MAXLNUM (-3) true = after ∧
      WellFormed after ∧ depth after 3 = depth sampleFolds 6) ∧
    ∃ after, foldMarkAdjust sampleFolds 4 MAXLNUM 2 0 true = after ∧
      WellFormed after ∧ depth after 6 = depth sampleFolds 4 := by
  obtain ⟨hdelete, hinsert⟩ :=
    fold_mark_adjust sampleFolds wellFormed_sampleFolds true
  constructor
  · obtain ⟨hwell, -, hbelow⟩ := hdelete 3 5 (by decide) _ rfl
    exact ⟨_, rfl, hwell, hbelow 6 (by decide)⟩
  · obtain ⟨hwell, hkeep⟩ := hinsert 4 2 (by decide) (by decide) (by decide)
      (by simp [sampleFolds, Fold.stop, MAXLNUM]) 0 _ rfl
    exact ⟨_, rfl, hwell, hkeep.mpr (by simp) 4⟩

/-- A line inserted in Insert mode below line 4 of the sample: that line is
no longer in the nested fold. -/
theorem not_fold_mark_adjust_insertMode :
    ¬ ∀ (folds : List Fold) (line n : Nat), WellFormed folds → 0 < n →
      (∀ f ∈ folds, 0 < f.top ∧ f.stop ≤ MAXLNUM + 1) →
      ∀ k : Nat, depth (foldMarkAdjust folds line MAXLNUM n 0 true)
        (if k < line then k else k + n) = depth folds k := by
  intro h
  have hline := h sampleFolds 5 1 wellFormed_sampleFolds (by decide)
    (by simp [sampleFolds, Fold.stop, MAXLNUM]) 4
  simp [sampleFolds, foldMarkAdjust, foldMarkAdjustRecurse, MAXLNUM,
    depth] at hline

end Zmax.FoldTree
