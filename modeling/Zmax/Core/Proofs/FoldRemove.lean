/-
Folds are removed from some lines, and the other lines keep theirs.

A round of the loop puts zero to two folds in the place of one: `Kept` is
what such a round leaves alone, `Clear` what it is after. At most one fold
lies across the first of the lines; once it is cut, each round but the last
drops a fold, which bounds the loop.
-/
import Zmax.Core.Proofs.FoldTree

namespace Zmax.FoldTree

variable {folds gap : List Fold} {top bot line : Int}

-- == siblings

/-- A fold by itself is well formed. -/
structure Fold.Proper (f : Fold) : Prop where
  pos : 0 < f.len
  inside : ∀ g ∈ f.nested, g.stop ≤ f.len
  nested : WellFormed f.nested

theorem Fold.stop_eq (f : Fold) : (f.stop : Int) = f.top + f.len := by
  simp [Fold.stop]

theorem wellFormed_iff :
    WellFormed folds ↔ (∀ f ∈ folds, f.Proper) ∧
      folds.Pairwise fun f g => f.stop ≤ g.top := by
  induction folds with
  | nil => simp
  | cons f rest ih =>
      rw [wellFormed_cons, ih, List.forall_mem_cons, List.pairwise_cons]
      constructor
      · rintro ⟨hpos, hinside, hnested, hsorted, hrest⟩
        exact ⟨⟨⟨hpos, hinside, hnested⟩, hrest.1⟩, hsorted, hrest.2⟩
      · rintro ⟨⟨hf, hproper⟩, hsorted, hrest⟩
        exact ⟨hf.pos, hf.inside, hf.nested, hsorted, hproper, hrest⟩

variable {f fp : Fold} {i : Nat} {delta : Int}

/-- The list around one of its folds. -/
theorem eq_around (h : gap[i]? = some f) :
    gap = gap.take i ++ f :: gap.drop (i + 1) := by
  obtain ⟨hi, rfl⟩ := List.getElem?_eq_some_iff.mp h
  rw [← List.drop_eq_getElem_cons hi, List.take_append_drop]

-- == finding

/-- What `fold_find` finds. -/
structure Found (gap : List Fold) (lnum : Int) (i : Nat) (found : Bool) :
    Prop where
  le : i ≤ gap.length
  before : ∀ f ∈ gap.take i, f.stop ≤ lnum
  here : found = true → ∃ f, gap[i]? = some f ∧ f.top ≤ lnum ∧ lnum < f.stop
  after : found = false → ∀ f ∈ gap.drop i, lnum < f.top

/-- Siblings before one of them end before it, and the others begin behind
it. -/
theorem sorted_around (hsorted : gap.Pairwise fun f g => f.stop ≤ g.top)
    (h : gap[i]? = some f) :
    (∀ g ∈ gap.take i, g.stop ≤ f.top) ∧
      ∀ g ∈ gap.drop (i + 1), f.stop ≤ g.top := by
  rw [eq_around h] at hsorted
  obtain ⟨-, hcons, hcross⟩ := List.pairwise_append.mp hsorted
  exact ⟨fun g hg => hcross g hg f List.mem_cons_self,
    (List.pairwise_cons.mp hcons).1⟩

theorem findLoop_spec {lnum : Int} {low : Nat} {high : Int}
    (hsorted : gap.Pairwise fun f g => f.stop ≤ g.top)
    (hlow : low ≤ high + 1) (hhigh : high < gap.length)
    (hbefore : ∀ f ∈ gap.take low, f.stop ≤ lnum)
    (hafter : ∀ f ∈ gap.drop (high + 1).toNat, lnum < f.top) :
    ∃ i found, findLoop gap lnum low high = .ok (i, found) ∧
      Found gap lnum i found := by
  induction hn : (high + 1 - low).toNat using Nat.strongRecOn
    generalizing low high with
  | _ n ih =>
      subst hn
      unfold findLoop
      by_cases hmore : (low : Int) ≤ high
      · have hi : ((low + high) / 2).toNat < gap.length := by omega
        have hget := List.getElem?_eq_getElem hi
        generalize hf : gap[((low + high) / 2).toNat] = f at hget
        obtain ⟨hpre, hpost⟩ := sorted_around hsorted hget
        have hstop := f.stop_eq
        rw [if_pos hmore]
        simp only [hget]
        generalize hmid : ((low + high) / 2).toNat = i at *
        by_cases hbelow : (f.top : Int) > lnum
        · rw [if_pos hbelow]
          refine ih _ (by omega) (by omega) (by omega) hbefore
            (fun g hg => ?_) rfl
          rw [show ((i : Int) - 1 + 1).toNat = i from by omega,
            List.drop_eq_getElem_cons hi, hf] at hg
          rcases List.mem_cons.mp hg with rfl | hg
          · exact hbelow
          · have := hpost g hg
            omega
        rw [if_neg hbelow]
        by_cases habove : (f.stop : Int) ≤ lnum
        · rw [if_pos habove]
          refine ih _ (by omega) (by omega) hhigh (fun g hg => ?_) hafter rfl
          rw [List.take_succ_eq_append_getElem hi, hf] at hg
          rcases List.mem_append.mp hg with hg | hg
          · have := hpre g hg
            omega
          · rw [List.mem_singleton.mp hg]
            exact habove
        · rw [if_neg habove]
          exact ⟨i, true, rfl, by omega, fun g hg => by
            have := hpre g hg
            omega, fun _ => ⟨f, hget, by omega, by omega⟩, by simp⟩
      · rw [if_neg hmore]
        have hend : (high + 1).toNat = low := by omega
        rw [hend] at hafter
        exact ⟨low, false, rfl, by omega, hbefore, by simp, fun _ => hafter⟩

theorem foldFind_spec (lnum : Int) (h : WellFormed gap) :
    ∃ i found, foldFind gap lnum = .ok (i, found) ∧
      Found gap lnum i found := by
  unfold foldFind
  by_cases hempty : gap.isEmpty
  · rw [if_pos hempty]
    obtain rfl := List.isEmpty_iff.mp hempty
    exact ⟨0, false, rfl, by simp, by simp, by simp, by simp⟩
  · rw [if_neg hempty]
    have hne : gap ≠ [] := by simpa using hempty
    have hlen := List.length_pos_iff.mpr hne
    exact findLoop_spec (wellFormed_iff.mp h).2 (by omega) (by omega) (by simp)
      (by simp)

-- == replacing

/-- What a round of removing leaves alone. -/
structure Kept (top bot : Int) (gap after : List Fold) : Prop where
  wellFormed : WellFormed after
  depth_eq : ∀ line, line < top ∨ bot < line →
    depth after line = depth gap line
  inside : ∀ g ∈ after, ∃ f ∈ gap, f.top ≤ g.top ∧ g.stop ≤ f.stop

/-- No fold has one of the lines. -/
def Clear (top bot : Int) (gap : List Fold) : Prop :=
  ∀ g ∈ gap, g.stop ≤ top ∨ bot < g.top

theorem Kept.refl (h : WellFormed gap) : Kept top bot gap gap :=
  ⟨h, fun _ _ => rfl, fun g hg => ⟨g, hg, Nat.le_refl _, Nat.le_refl _⟩⟩

theorem Kept.trans {gap₁ gap₂ gap₃ : List Fold} (h : Kept top bot gap₁ gap₂)
    (h' : Kept top bot gap₂ gap₃) : Kept top bot gap₁ gap₃ where
  wellFormed := h'.wellFormed
  depth_eq line hline := (h'.depth_eq line hline).trans (h.depth_eq line hline)
  inside g hg := by
    obtain ⟨f, hf, h₁, h₂⟩ := h'.inside g hg
    obtain ⟨e, he, h₃, h₄⟩ := h.inside f hf
    exact ⟨e, he, Nat.le_trans h₃ h₁, Nat.le_trans h₂ h₄⟩

/-- Other folds in the place of one. -/
theorem kept_replace {pre post fs : List Fold}
    (h : WellFormed (pre ++ f :: post)) (hfs : WellFormed fs)
    (hinside : ∀ g ∈ fs, f.top ≤ g.top ∧ g.stop ≤ f.stop)
    (hdepth : ∀ line, line < top ∨ bot < line →
      depth fs line = depth [f] line) :
    Kept top bot (pre ++ f :: post) (pre ++ fs ++ post) := by
  obtain ⟨hproper, hsorted⟩ := wellFormed_iff.mp h
  obtain ⟨hfsproper, hfssorted⟩ := wellFormed_iff.mp hfs
  obtain ⟨hpre, hfpost, hcross⟩ := List.pairwise_append.mp hsorted
  obtain ⟨hf, hpost⟩ := List.pairwise_cons.mp hfpost
  refine ⟨wellFormed_iff.mpr ⟨?_, ?_⟩, fun line hline => ?_, ?_⟩
  · intro g hg
    rcases List.mem_append.mp hg with hg | hg
    · rcases List.mem_append.mp hg with hg | hg
      · exact hproper g (List.mem_append_left _ hg)
      · exact hfsproper g hg
    · exact hproper g (List.mem_append_right _ (List.mem_cons_of_mem _ hg))
  · rw [List.append_assoc]
    refine List.pairwise_append.mpr ⟨hpre, List.pairwise_append.mpr
      ⟨hfssorted, hpost, fun g hg g' hg' => ?_⟩, fun g hg g' hg' => ?_⟩
    · exact Nat.le_trans (hinside g hg).2 (hf g' hg')
    · rcases List.mem_append.mp hg' with hg' | hg'
      · exact Nat.le_trans (hcross g hg f List.mem_cons_self)
          (hinside g' hg').1
      · exact hcross g hg g' (List.mem_cons_of_mem _ hg')
  · have hone := hdepth line hline
    rw [depth_cons, depth_nil, Nat.add_zero] at hone
    rw [depth_append, depth_append, depth_append, depth_cons, hone,
      Nat.add_assoc]
  · intro g hg
    rcases List.mem_append.mp hg with hg | hg
    · rcases List.mem_append.mp hg with hg | hg
      · exact ⟨g, List.mem_append_left _ hg, Nat.le_refl _, Nat.le_refl _⟩
      · exact ⟨f, by simp, hinside g hg⟩
    · exact ⟨g, List.mem_append_right _ (List.mem_cons_of_mem _ hg),
        Nat.le_refl _, Nat.le_refl _⟩

-- == splitting

/-- Folds moved up by some lines. -/
def rebase (delta : Int) (folds : List Fold) : List Fold :=
  folds.map fun f => { f with top := (f.top - delta).toNat }

theorem mem_rebase {g : Fold} (hdelta : ∀ f ∈ folds, delta ≤ f.top)
    (hg : g ∈ rebase delta folds) :
    ∃ f ∈ folds, (g.top : Int) = f.top - delta ∧
      (g.stop : Int) = f.stop - delta ∧ (f.Proper → g.Proper) := by
  obtain ⟨f, hf, rfl⟩ := List.mem_map.mp hg
  have := hdelta f hf
  refine ⟨f, hf, ?_, ?_, fun h => ⟨h.pos, h.inside, h.nested⟩⟩
  · simp only
    omega
  · simp only [Fold.stop]
    omega

theorem wellFormed_rebase (h : WellFormed folds)
    (hdelta : ∀ f ∈ folds, delta ≤ f.top) :
    WellFormed (rebase delta folds) := by
  obtain ⟨hproper, hsorted⟩ := wellFormed_iff.mp h
  refine wellFormed_iff.mpr ⟨fun g hg => ?_, ?_⟩
  · obtain ⟨f, hf, -, -, hg⟩ := mem_rebase hdelta hg
    exact hg (hproper f hf)
  · refine List.pairwise_map.mpr (hsorted.imp_of_mem fun hf hg hle => ?_)
    have := hdelta _ hf
    have := hdelta _ hg
    simp only [Fold.stop] at hle ⊢
    omega

theorem depth_rebase (hdelta : ∀ f ∈ folds, delta ≤ f.top) (line : Int) :
    depth (rebase delta folds) line = depth folds (line + delta) := by
  induction folds with
  | nil => simp [rebase]
  | cons f rest ih =>
      obtain ⟨hf, hrest⟩ := List.forall_mem_cons.mp hdelta
      rw [rebase, List.map_cons, ← rebase, depth_cons, depth_cons, ih hrest]
      have htop : ((f.top - delta).toNat : Int) = f.top - delta := by omega
      have hline : line - (f.top - delta) = line + delta - f.top := by omega
      generalize hg : { f with top := (f.top - delta).toNat } = g
      have hgtop : (g.top : Int) = f.top - delta := by
        rw [← hg]
        exact htop
      have hgstop : (g.stop : Int) = f.stop - delta := by
        rw [← hg, Fold.stop_eq, Fold.stop_eq]
        simp only
        omega
      have hnested : g.nested = f.nested := by rw [← hg]
      refine congrArg (· + _) ?_
      rw [hgtop, hgstop, hnested, hline]
      split_ifs <;> omega

theorem wellFormed_take (h : WellFormed folds) (i : Nat) :
    WellFormed (folds.take i) := by
  obtain ⟨hproper, hsorted⟩ := wellFormed_iff.mp h
  exact wellFormed_iff.mpr ⟨fun f hf => hproper f (List.mem_of_mem_take hf),
    hsorted.sublist (List.take_sublist i folds)⟩

theorem wellFormed_drop (h : WellFormed folds) (i : Nat) :
    WellFormed (folds.drop i) := by
  obtain ⟨hproper, hsorted⟩ := wellFormed_iff.mp h
  exact wellFormed_iff.mpr ⟨fun f hf => hproper f (List.mem_of_mem_drop hf),
    hsorted.sublist (List.drop_sublist i folds)⟩

/-- A fold up to `top`, with some of its nested folds. -/
def upperPart (fp : Fold) (top : Int) (idx : Nat) : Fold :=
  { fp with
    len := (top - fp.top).toNat
    nested := fp.nested.take idx
    small := .none }

/-- A fold from below `bot` on, with the others. -/
def lowerPart (fp : Fold) (bot : Int) (idx : Nat) : Fold :=
  { fp with
    top := (bot + 1).toNat
    len := (fp.len - (bot + 1 - fp.top)).toNat
    nested := rebase (bot + 1 - fp.top) (fp.nested.drop idx)
    small := .none }

/-- The two parts of a split fold: what they cover, and which nested folds
they have. -/
structure Parts (fp first second : Fold) (top bot : Int) : Prop where
  top_eq : first.top = fp.top
  stop_eq : (first.stop : Int) = top
  top_eq' : (second.top : Int) = bot + 1
  stop_eq' : second.stop = fp.stop
  nested : ∃ below, fp.nested = first.nested ++ below ∧
    (∀ g ∈ below, bot + 1 - fp.top ≤ g.top) ∧
    second.nested = rebase (bot + 1 - fp.top) below
  wellFormed : WellFormed [first, second]
  depth_eq : ∀ line, line < top ∨ bot < line →
    depth [first, second] line = depth [fp] line

/-- Splitting a fold that starts above `top` and ends below `bot`, with no
nested fold in between. -/
theorem foldSplit_spec (hget : gap[i]? = some fp) (hfp : fp.Proper)
    (htop : fp.top < top) (hle : top ≤ bot) (hbot : bot + 1 < fp.stop)
    (hclear : Clear (top - fp.top) (bot - fp.top) fp.nested) :
    ∃ first second, foldSplit gap i top bot =
        .ok (gap.take i ++ first :: second :: gap.drop (i + 1)) ∧
      Parts fp first second top bot := by
  have hstop := fp.stop_eq
  obtain ⟨idx, found, hfind, hle', hbefore, hhere, hafter⟩ :=
    foldFind_spec (bot + 1 - fp.top) hfp.nested
  obtain ⟨hnested, hsorted⟩ := wellFormed_iff.mp hfp.nested
  -- nested folds before the found one end above `top`
  have habove : ∀ g ∈ fp.nested.take idx, (g.stop : Int) ≤ top - fp.top := by
    intro g hg
    have hmem := List.mem_of_mem_take hg
    have hend := hbefore g hg
    have hpos := (hnested g hmem).pos
    have hgstop := g.stop_eq
    rcases hclear g hmem with h | h
    · exact h
    · omega
  -- and the others begin below `bot`
  have hbelow : ∀ g ∈ fp.nested.drop idx, bot + 1 - fp.top ≤ g.top := by
    cases found with
    | false =>
        intro g hg
        have := hafter rfl g hg
        omega
    | true =>
        obtain ⟨f, hf, h₁, h₂⟩ := hhere rfl
        obtain ⟨hidx, hfeq⟩ := List.getElem?_eq_some_iff.mp hf
        have hfirst : bot + 1 - fp.top ≤ f.top := by
          rcases hclear f (List.mem_of_getElem? hf) with h | h
          · omega
          · omega
        intro g hg
        rw [List.drop_eq_getElem_cons hidx, hfeq] at hg
        rcases List.mem_cons.mp hg with rfl | hg
        · exact hfirst
        · have := (sorted_around hsorted hf).2 g hg
          have := f.stop_eq
          omega
  have hlater : ∀ line : Int, depth fp.nested line =
      depth (fp.nested.take idx) line + depth (fp.nested.drop idx) line := by
    intro line
    rw [← depth_append, List.take_append_drop]
  have hupper : ((upperPart fp top idx).stop : Int) = top := by
    simp only [upperPart, Fold.stop]
    omega
  have hlowertop : ((lowerPart fp bot idx).top : Int) = bot + 1 := by
    simp only [lowerPart]
    omega
  have hlower : (lowerPart fp bot idx).stop = fp.stop := by
    change (bot + 1).toNat + (fp.len - (bot + 1 - fp.top)).toNat = fp.stop
    omega
  refine ⟨upperPart fp top idx, lowerPart fp bot idx, ?_, rfl, hupper,
    hlowertop, hlower, ⟨_, (List.take_append_drop idx fp.nested).symm, hbelow,
      rfl⟩, ?_, fun line hline => ?_⟩
  · rw [foldSplit, index_eq_ok.mpr hget, ok_bind]
    simp only [hfind, ok_bind]
    rfl
  · refine wellFormed_iff.mpr ⟨?_, List.pairwise_pair.mpr (by omega)⟩
    have hdrop := wellFormed_drop hfp.nested idx
    simp only [List.forall_mem_cons]
    refine ⟨⟨?_, fun g hg => ?_, wellFormed_take hfp.nested idx⟩,
      ⟨?_, fun g hg => ?_, wellFormed_rebase hdrop hbelow⟩, by simp⟩
    · simp only [upperPart]
      omega
    · have := habove g hg
      simp only [upperPart]
      omega
    · simp only [lowerPart]
      omega
    · obtain ⟨f, hf, -, hgstop, -⟩ := mem_rebase hbelow hg
      have := hfp.inside f (List.mem_of_mem_drop hf)
      simp only [lowerPart]
      omega
  · have htake : top ≤ line → depth (fp.nested.take idx) (line - fp.top) = 0 :=
      fun hin => depth_below fun g hg => by
        have := habove g hg
        omega
    have hdrop : line ≤ bot → depth (fp.nested.drop idx) (line - fp.top) = 0 :=
      fun hin => depth_above fun g hg => by
        have := hbelow g hg
        omega
    have hmoved : depth (lowerPart fp bot idx).nested (line - (bot + 1)) =
        depth (fp.nested.drop idx) (line - fp.top) := by
      refine (depth_rebase hbelow _).trans ?_
      congr 1
      omega
    rw [depth_cons, depth_cons, depth_cons, depth_nil, hupper, hlowertop,
      hlower, hmoved, hlater]
    change (if (fp.top : Int) ≤ line ∧ line < top then
      depth (fp.nested.take idx) (line - fp.top) + 1 else 0) + _ = _
    rcases hline with hline | hline
    · rw [hdrop (by omega)]
      split_ifs <;> omega
    · rw [htake (by omega)]
      split_ifs <;> omega

-- == removing

theorem set_around (h : gap[i]? = some f) (g : Fold) :
    gap.set i g = gap.take i ++ [g] ++ gap.drop (i + 1) := by
  obtain ⟨hi, -⟩ := List.getElem?_eq_some_iff.mp h
  rw [List.set_eq_take_append_cons_drop, if_pos hi]
  simp

/-- What is left of a fold that starts in the removed lines and ends below
them. -/
def fromBelow (fp : Fold) (bot : Int) : Fold :=
  { fp with
    top := (bot + 1).toNat
    len := (fp.len - (bot - fp.top + 1)).toNat
    nested := foldMarkAdjustRecurse 0 (bot - fp.top) MAXLNUM
      (fp.top - bot - 1) false fp.nested }

theorem fromBelow_spec (hfp : fp.Proper) (htop : top ≤ fp.top)
    (hbot : fp.top ≤ bot) (hstop : bot + 1 < fp.stop) :
    (fromBelow fp bot).Proper ∧ ((fromBelow fp bot).top : Int) = bot + 1 ∧
      (fromBelow fp bot).stop = fp.stop ∧
      ∀ line, line < top ∨ bot < line →
        depth [fromBelow fp bot] line = depth [fp] line := by
  have hfpstop := fp.stop_eq
  have hnested : (fromBelow fp bot).nested =
      deleted false 0 (bot - fp.top) fp.nested := by
    rw [deleted, show -(bot - fp.top - 0 + 1) = fp.top - bot - 1 from by omega]
    rfl
  have hnewtop : ((fromBelow fp bot).top : Int) = bot + 1 := by
    change (((bot + 1).toNat : Nat) : Int) = bot + 1
    omega
  have hnewstop : (fromBelow fp bot).stop = fp.stop := by
    change (bot + 1).toNat + (fp.len - (bot - fp.top + 1)).toNat = fp.stop
    omega
  have hnewlen := (fromBelow fp bot).stop_eq
  refine ⟨⟨by omega, fun g hg => ?_, ?_⟩, hnewtop, hnewstop,
    fun line hline => ?_⟩
  · rw [hnested] at hg
    obtain ⟨f, hf, -, hgstop⟩ := mem_deleted (by omega) (Int.le_refl 0)
      hfp.nested hg
    have hle := hfp.inside f hf
    have hshift : shift 0 (bot - fp.top) f.stop ≤
        shift 0 (bot - fp.top) fp.len := shift_mono (by omega)
    have hlen : shift 0 (bot - fp.top) fp.len =
        fp.len - (bot - fp.top + 1) := by
      unfold shift
      split_ifs <;> omega
    omega
  · rw [hnested]
    exact wellFormed_deleted (by omega) (Int.le_refl 0) hfp.nested
  · rw [depth_cons, depth_cons, depth_nil, hnewtop, hnewstop, hnested,
      depth_deleted (by omega) (Int.le_refl 0) hfp.nested]
    by_cases hin : bot + 1 ≤ line ∧ line < fp.stop
    · rw [if_pos hin, if_neg (by omega), if_pos (by omega)]
      congr 3
      omega
    · rw [if_neg hin, if_neg (by omega)]

/-- Once no fold lies across `top`, a round drops one or is the last. -/
theorem removeLoop_past {fuel : Nat} (hle : top ≤ bot) (h : WellFormed gap)
    (hpast : ∀ f ∈ gap, f.top < top → f.stop ≤ top)
    (hfuel : gap.length < fuel) :
    ∃ after, removeLoop fuel gap top bot = .ok after ∧
      Kept top bot gap after ∧ Clear top bot after := by
  induction fuel generalizing gap with
  | zero => omega
  | succ fuel ih =>
      rw [removeLoop]
      by_cases hempty : gap.isEmpty
      · rw [if_pos (.inr hempty)]
        obtain rfl := List.isEmpty_iff.mp hempty
        exact ⟨[], rfl, .refl h, by simp [Clear]⟩
      rw [if_neg (by rintro (hlt | he) <;> [omega; exact hempty he])]
      obtain ⟨i, found, hfind, hi, hbefore, hhere, hafter⟩ :=
        foldFind_spec top h
      obtain ⟨hproper, hsorted⟩ := wellFormed_iff.mp h
      rw [hfind, ok_bind]
      cases hget : gap[i]? with
      | none =>
          -- all folds end above
          have hlen := List.getElem?_eq_none_iff.mp hget
          have hfound : found = false := by
            cases found with
            | false => rfl
            | true =>
                obtain ⟨f, hf, -⟩ := hhere rfl
                rw [hget] at hf
                cases hf
          subst hfound
          simp only [hget]
          refine ⟨gap, rfl, .refl h, fun g hg => .inl (hbefore g ?_)⟩
          rwa [List.take_of_length_le hlen]
      | some fp =>
          have hmem := List.mem_of_getElem? hget
          have hstop := fp.stop_eq
          have hpos := (hproper fp hmem).pos
          obtain ⟨hpre, hpost⟩ := sorted_around hsorted hget
          have htop : top ≤ fp.top := by
            cases found with
            | false =>
                obtain ⟨hlt, hfp⟩ := List.getElem?_eq_some_iff.mp hget
                have hdrop : fp ∈ gap.drop i := by
                  rw [List.drop_eq_getElem_cons hlt, hfp]
                  exact List.mem_cons_self
                have := hafter rfl fp hdrop
                omega
            | true =>
                obtain ⟨f, hf, h₁, h₂⟩ := hhere rfl
                have heq : fp = f := Option.some.inj (hget.symm.trans hf)
                rw [← heq] at h₁ h₂
                have := hpast fp hmem
                omega
          simp only [hget]
          rw [if_neg (by omega)]
          by_cases hbelow : (fp.top : Int) > bot
          · rw [if_pos hbelow]
            refine ⟨gap, rfl, .refl h, fun g hg => ?_⟩
            rw [eq_around hget] at hg
            rcases List.mem_append.mp hg with hg | hg
            · exact .inl (hbefore g hg)
            · rcases List.mem_cons.mp hg with rfl | hg
              · exact .inr hbelow
              · have := hpost g hg
                exact .inr (by omega)
          rw [if_neg hbelow, if_pos htop]
          by_cases hlast : (fp.top : Int) + fp.len - 1 > bot
          · -- the part below `bot` is left
            have hinto : (fp.top : Int) ≤ bot := by omega
            have hout : bot + 1 < fp.stop := by omega
            obtain ⟨hnew, hnewtop, hnewstop, hdepth⟩ :=
              fromBelow_spec (hproper fp hmem) htop hinto hout
            rw [if_pos hlast]
            refine ⟨gap.set i (fromBelow fp bot), rfl, ?_, ?_⟩
            · rw [set_around hget]
              have hkept := kept_replace (eq_around hget ▸ h)
                (wellFormed_iff.mpr ⟨by simpa using hnew, by simp⟩)
                (by simp; omega) hdepth
              rwa [← eq_around hget] at hkept
            · intro g hg
              rw [set_around hget, List.append_assoc] at hg
              rcases List.mem_append.mp hg with hg | hg
              · exact .inl (hbefore g hg)
              · rcases List.mem_cons.mp hg with rfl | hg
                · exact .inr (by omega)
                · have := hpost g hg
                  exact .inr (by omega)
          · -- nothing of the fold is left
            rw [if_neg hlast, List.eraseIdx_eq_take_drop_succ]
            have hkept : Kept top bot gap
                (gap.take i ++ gap.drop (i + 1)) := by
              have hdepth : ∀ line, line < top ∨ bot < line →
                  depth [] line = depth [fp] line := by
                intro line hline
                rw [depth_nil, depth_cons, if_neg (by omega), depth_nil]
              have hkept := kept_replace (eq_around hget ▸ h) wellFormed_nil
                (by simp) hdepth
              rwa [← eq_around hget, List.append_nil] at hkept
            have hpast' : ∀ f ∈ gap.take i ++ gap.drop (i + 1),
                f.top < top → f.stop ≤ top := by
              intro f hf
              rcases List.mem_append.mp hf with hf | hf
              · exact hpast f (List.mem_of_mem_take hf)
              · exact hpast f (List.mem_of_mem_drop hf)
            obtain ⟨hlt, -⟩ := List.getElem?_eq_some_iff.mp hget
            obtain ⟨after, hafter', hkept', hclear⟩ :=
              ih hkept.wellFormed hpast' (by simp; omega)
            exact ⟨after, hafter', hkept.trans hkept', hclear⟩

-- ------------------------------------------------------------- the bound

theorem removeBound_cons (f : Fold) (rest : List Fold) :
    removeBound (f :: rest) =
      removeBound f.nested + removeBound rest + 1 := by
  obtain ⟨top, len, nested, flags, small⟩ := f
  rw [removeBound]

theorem lt_removeBound (folds : List Fold) :
    3 * folds.length + 2 ≤ removeBound folds := by
  induction folds with
  | nil => simp [removeBound]
  | cons f rest ih =>
      have hnested : 2 ≤ removeBound f.nested := by
        cases hf : f.nested with
        | nil => simp [removeBound]
        | cons g inner =>
            have hinner : 1 ≤ removeBound inner := by
              cases inner with
              | nil => simp [removeBound]
              | cons h inner =>
                  rw [removeBound_cons]
                  omega
            rw [removeBound_cons]
            omega
      rw [removeBound_cons, List.length_cons]
      omega

theorem removeBound_nested (hf : f ∈ gap) :
    removeBound f.nested < removeBound gap := by
  induction gap with
  | nil => cases hf
  | cons g rest ih =>
      rw [removeBound_cons]
      rcases List.mem_cons.mp hf with rfl | hf
      · omega
      · have := ih hf
        omega

-- ------------------------------------------------------- across the first line

/-- A fold whose nested folds were removed. -/
theorem withNested {nested : List Fold} (hfp : fp.Proper)
    (hnested : Kept (top - fp.top) (bot - fp.top) fp.nested nested) :
    Fold.Proper { fp with nested } ∧
      ∀ line, line < top ∨ bot < line →
        depth [{ fp with nested }] line = depth [fp] line := by
  refine ⟨⟨hfp.pos, fun g hg => ?_, hnested.wellFormed⟩, fun line hline => ?_⟩
  · obtain ⟨f, hf, -, hle⟩ := hnested.inside g hg
    exact Nat.le_trans hle (hfp.inside f hf)
  · have hinner := hnested.depth_eq (line - fp.top) (by omega)
    rw [depth_cons, depth_cons]
    exact congrArg (fun inner => (if (fp.top : Int) ≤ line ∧ line < fp.stop then
      inner + 1 else 0) + depth [] line) hinner

/-- A fold that ends in the removed lines, cut off in front of them. -/
theorem cutOff (hfp : fp.Proper) (htop : fp.top < top)
    (hstop : top < fp.stop) (hbot : fp.stop ≤ bot + 1)
    (hclear : Clear (top - fp.top) (bot - fp.top) fp.nested) :
    ∀ cut : Fold, { fp with len := (top - fp.top).toNat } = cut →
      cut.Proper ∧ cut.top = fp.top ∧ (cut.stop : Int) = top ∧
        ∀ line, line < top ∨ bot < line →
          depth [cut] line = depth [fp] line := by
  intro cut hcut
  have hfpstop := fp.stop_eq
  have hnested : cut.nested = fp.nested := by rw [← hcut]
  have hcuttop : cut.top = fp.top := by rw [← hcut]
  have hlen : (cut.len : Int) = top - fp.top := by
    rw [← hcut]
    simp only
    omega
  have hcutstop := cut.stop_eq
  refine ⟨⟨by omega, fun g hg => ?_, hnested ▸ hfp.nested⟩, hcuttop, by omega,
    fun line hline => ?_⟩
  · rw [hnested] at hg
    have hinside := hfp.inside g hg
    have hpos := ((wellFormed_iff.mp hfp.nested).1 g hg).pos
    have hgstop := g.stop_eq
    rcases hclear g hg with h | h
    · omega
    · omega
  · rw [depth_cons, depth_cons, hnested, hcuttop]
    split_ifs <;> omega

theorem removeLoop_spec {fuel : Nat} (hle : top ≤ bot) (h : WellFormed gap)
    (hfuel : removeBound gap ≤ fuel) :
    ∃ after, removeLoop fuel gap top bot = .ok after ∧
      Kept top bot gap after ∧ Clear top bot after := by
  induction fuel generalizing gap top bot with
  | zero =>
      have := lt_removeBound gap
      omega
  | succ fuel ih =>
      have hbound := lt_removeBound gap
      by_cases hpast : ∀ f ∈ gap, f.top < top → f.stop ≤ top
      · exact removeLoop_past hle h hpast (by omega)
      obtain ⟨f, hf, htop, hstop⟩ : ∃ f ∈ gap, (f.top : Int) < top ∧
          top < f.stop := by
        simpa only [not_forall, Int.not_le, exists_prop] using hpast
      obtain ⟨i, found, hfind, hi, hbefore, hhere, hafter⟩ :=
        foldFind_spec top h
      obtain ⟨hproper, hsorted⟩ := wellFormed_iff.mp h
      -- the one that is found is the one across `top`
      have hdrop : f ∈ gap.drop i := by
        rw [← List.take_append_drop i gap] at hf
        rcases List.mem_append.mp hf with hf | hf
        · have := hbefore f hf
          omega
        · exact hf
      obtain rfl : found = true := by
        cases found with
        | true => rfl
        | false =>
            have := hafter rfl f hdrop
            omega
      obtain ⟨fp, hget, hfptop, hfpstop⟩ := hhere rfl
      obtain ⟨hlt, hfp⟩ := List.getElem?_eq_some_iff.mp hget
      obtain ⟨hpre, hpost⟩ := sorted_around hsorted hget
      have hacross : fp.top < top := by
        rw [List.drop_eq_getElem_cons hlt, hfp] at hdrop
        rcases List.mem_cons.mp hdrop with rfl | hrest
        · exact htop
        · have := hpost f hrest
          omega
      have hmem := List.mem_of_getElem? hget
      have hstopeq := fp.stop_eq
      have hinner := removeBound_nested hmem
      obtain ⟨nested, hnested, hkept, hclear⟩ :=
        ih (show top - fp.top ≤ bot - fp.top by omega) (hproper fp hmem).nested
          (by omega)
      obtain ⟨hfp', hdepth'⟩ := withNested (hproper fp hmem) hkept
      have hne : ¬ (bot < top ∨ gap.isEmpty = true) := by
        rintro (hlt | hempty)
        · omega
        · rw [List.isEmpty_iff.mp hempty] at hmem
          cases hmem
      rw [removeLoop, if_neg hne, hfind, ok_bind]
      simp only [hget]
      rw [if_pos ⟨trivial, hacross⟩, hnested]
      simp only [ok_bind]
      have hreplace : ∀ fs, WellFormed fs →
          (∀ g ∈ fs, fp.top ≤ g.top ∧ g.stop ≤ fp.stop) →
          (∀ line, line < top ∨ bot < line →
            depth fs line = depth [fp] line) →
          Kept top bot gap (gap.take i ++ fs ++ gap.drop (i + 1)) := by
        intro fs hfs hinside hdepth
        have := kept_replace (eq_around hget ▸ h) hfs hinside hdepth
        rwa [← eq_around hget] at this
      -- what comes in its place is not across `top`, so the rest is easy
      have hrest : ∀ fs, Kept top bot gap
            (gap.take i ++ fs ++ gap.drop (i + 1)) →
          (∀ g ∈ fs, g.top < top → g.stop ≤ top) → fs.length ≤ 2 →
          ∃ after, removeLoop fuel (gap.take i ++ fs ++ gap.drop (i + 1))
              top bot = .ok after ∧
            Kept top bot gap after ∧ Clear top bot after := by
        intro fs hfs hfspast hlen
        have hpast' : ∀ g ∈ gap.take i ++ fs ++ gap.drop (i + 1),
            g.top < top → g.stop ≤ top := by
          intro g hg hgtop
          rcases List.mem_append.mp hg with hg | hg
          · rcases List.mem_append.mp hg with hg | hg
            · exact hbefore g hg
            · exact hfspast g hg hgtop
          · have := hpost g hg
            omega
        have hfuel' : (gap.take i ++ fs ++ gap.drop (i + 1)).length < fuel := by
          simp only [List.length_append, List.length_take, List.length_drop]
          omega
        obtain ⟨after, hafter, hkept', hclear'⟩ :=
          removeLoop_past hle hfs.wellFormed hpast' hfuel'
        exact ⟨after, hafter, hfs.trans hkept', hclear'⟩
      by_cases hlast : (fp.top : Int) + fp.len - 1 > bot
      · rw [if_pos hlast]
        have hget' : (gap.set i { fp with nested })[i]? =
            some { fp with nested } := by
          rw [List.getElem?_set_self hlt]
        obtain ⟨first, second, hsplit, hparts⟩ :=
          foldSplit_spec hget' hfp' hacross hle
            (show bot + 1 < (fp.stop : Int) by omega) hclear
        rw [hsplit, ok_bind, List.take_set_of_le (Nat.le_refl i),
          List.drop_set_of_lt (Nat.lt_succ_self i)]
        rw [show first :: second :: gap.drop (i + 1) =
          [first, second] ++ gap.drop (i + 1) from rfl, ← List.append_assoc]
        have hfirst : first.top = fp.top := hparts.top_eq
        have hfirst' := hparts.stop_eq
        have hsecond := hparts.top_eq'
        have hsecond' : second.stop = fp.stop := hparts.stop_eq'
        refine hrest _ (hreplace _ hparts.wellFormed ?_ fun line hline =>
          (hparts.depth_eq line hline).trans (hdepth' line hline)) ?_ (by simp)
        · simp only [List.forall_mem_cons]
          exact ⟨by omega, by omega, by simp⟩
        · simp only [List.forall_mem_cons]
          exact ⟨by omega, by omega, by simp⟩
      · rw [if_neg hlast, set_around hget]
        generalize hcuteq : Fold.mk _ (top - fp.top).toNat _ _ _ = cut
        obtain ⟨hcut, hcuttop, hcutstop, hdepth⟩ :=
          cutOff hfp' hacross hfpstop (show (fp.stop : Int) ≤ bot + 1 by omega)
            hclear cut hcuteq
        have hcuttop' : cut.top = fp.top := hcuttop
        refine hrest _ (hreplace _ (wellFormed_iff.mpr ⟨?_, ?_⟩) ?_
          fun line hline => (hdepth line hline).trans (hdepth' line hline)) ?_
          (by simp)
        · simpa using hcut
        · simp
        · simp only [List.forall_mem_singleton]
          omega
        · simp only [List.forall_mem_singleton]
          omega

-- == the claims

theorem depth_clear (h : Clear top bot folds) (htop : top ≤ line)
    (hbot : line ≤ bot) : depth folds line = 0 := by
  induction folds with
  | nil => simp
  | cons f rest ih =>
      obtain ⟨hf, hrest⟩ := List.forall_mem_cons.mp h
      rw [depth_cons, if_neg (by omega), ih hrest]

/-- Lines lose their folds, the others keep theirs. -/
theorem depth_kept {after : List Fold} (hkept : Kept top bot gap after)
    (hclear : Clear top bot after) (line : Int) :
    depth after line =
      if top ≤ line ∧ line ≤ bot then 0 else depth gap line := by
  by_cases hin : top ≤ line ∧ line ≤ bot
  · rw [if_pos hin, depth_clear hclear hin.1 hin.2]
  · rw [if_neg hin, hkept.depth_eq line (by omega)]

/-- Removing the folds of some lines; and splitting a fold around them once
its nested folds are removed there, as the caller has to. -/
theorem fold_remove (gap : List Fold) (h : WellFormed gap) (top bot : Int)
    (hle : top ≤ bot) :
    (∃ after, foldRemove gap top bot = .ok after ∧ WellFormed after ∧
      ∀ line, depth after line =
        if top ≤ line ∧ line ≤ bot then 0 else depth gap line) ∧
    ∀ i fp, gap[i]? = some fp → fp.top < top → bot + 1 < fp.stop →
      Clear (top - fp.top) (bot - fp.top) fp.nested →
      ∃ first second after, foldSplit gap i top bot = .ok after ∧
        after = gap.take i ++ first :: second :: gap.drop (i + 1) ∧
        Parts fp first second top bot ∧ WellFormed after ∧
        ∀ line, depth after line =
          if top ≤ line ∧ line ≤ bot then 0 else depth gap line := by
  constructor
  · obtain ⟨after, hafter, hkept, hclear⟩ :=
      removeLoop_spec hle h (Nat.le_refl (removeBound gap))
    exact ⟨after, hafter, hkept.wellFormed, depth_kept hkept hclear⟩
  · intro i fp hget htop hbot hinner
    obtain ⟨hproper, hsorted⟩ := wellFormed_iff.mp h
    obtain ⟨hpre, hpost⟩ := sorted_around hsorted hget
    obtain ⟨first, second, hsplit, hparts⟩ := foldSplit_spec hget
      (hproper fp (List.mem_of_getElem? hget)) htop hle hbot hinner
    have hfirst := hparts.top_eq
    have hfirst' := hparts.stop_eq
    have hsecond := hparts.top_eq'
    have hsecond' := hparts.stop_eq'
    have hkept : Kept top bot gap
        (gap.take i ++ [first, second] ++ gap.drop (i + 1)) := by
      have := kept_replace (eq_around hget ▸ h) hparts.wellFormed
        (fun g hg => ?_) hparts.depth_eq
      · rwa [← eq_around hget] at this
      · rcases List.mem_pair.mp hg with rfl | rfl <;> omega
    have hclear : Clear top bot
        (gap.take i ++ [first, second] ++ gap.drop (i + 1)) := by
      intro g hg
      rcases List.mem_append.mp hg with hg | hg
      · rcases List.mem_append.mp hg with hg | hg
        · have := hpre g hg
          omega
        · rcases List.mem_pair.mp hg with rfl | rfl <;> omega
      · have := hpost g hg
        omega
    have heq : gap.take i ++ [first, second] ++ gap.drop (i + 1) =
        gap.take i ++ first :: second :: gap.drop (i + 1) := by simp
    rw [heq] at hkept hclear
    exact ⟨first, second, _, hsplit, rfl, hparts, hkept.wellFormed,
      depth_kept hkept hclear⟩

/-- Line 5 of the sample, cut out of both folds; and line 7 of the sample
with three lines more, which is in the outer one only. -/
theorem fold_remove_sample :
    (∃ after, foldRemove sampleFolds 5 5 = .ok after ∧ WellFormed after ∧
      depth after 5 = 0 ∧ depth after 6 = depth sampleFolds 6) ∧
    ∃ after, foldSplit
        [⟨2, 9, [⟨2, 3, [], .level, .none⟩], .level, .none⟩] 0 7 7 =
        .ok after ∧ WellFormed after ∧ depth after 7 = 0 := by
  constructor
  · obtain ⟨⟨after, hafter, hwell, hdepth⟩, -⟩ :=
      fold_remove sampleFolds wellFormed_sampleFolds 5 5 (by decide)
    exact ⟨after, hafter, hwell, hdepth 5, hdepth 6⟩
  · have hwell : WellFormed
        [⟨2, 9, [⟨2, 3, [], .level, .none⟩], .level, .none⟩] := by
      simp [wellFormed_cons, Fold.stop]
    obtain ⟨-, hsplit⟩ := fold_remove _ hwell 7 7 (by decide)
    obtain ⟨-, -, after, hafter, -, -, hwell', hdepth⟩ :=
      hsplit 0 _ rfl (by decide) (by decide) (by simp [Clear, Fold.stop])
    exact ⟨after, hafter, hwell', hdepth 7⟩

end Zmax.FoldTree
