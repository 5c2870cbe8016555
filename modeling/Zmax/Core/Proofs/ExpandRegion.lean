/-
What the growing selection passes over.

For each kind of bracket the scan to the left stops where the depth first is
under the selection's, and the scan to the right where it is again
(`openBefore_spec`, `closeAfter_spec`), so they find the innermost pair around
the start of the selection (`enclosingOf_eq`). Only the first kind whose pair
reaches the end of the selection is tried. The region that is returned is the
smallest of the candidates, so it is the smallest of all exactly if none of
the pairs that are missed is smaller than all candidates.
-/
import Zmax.Core.PowerEdit
import Zmax.Lib.Height
import Mathlib.Logic.Relation

namespace Zmax.PowerEdit

open Height (height)

-- == pairs

/-- An opener goes one deeper, a closer comes back. -/
def bracketStep (pair : Char × Char) (c : Char) : Int :=
  if c = pair.1 then 1 else if c = pair.2 then -1 else 0

/-- An opener and the closer that matches it, with nesting. -/
structure Matched (pair : Char × Char) (chars : List Char) (op cl : Nat) :
    Prop where
  opener : chars[op]? = some pair.1
  closer : chars[cl]? = some pair.2
  nested : Height.Pair (bracketStep pair) chars op cl

variable {pair : Char × Char} {chars : List Char} {s e : Nat}

theorem ne_of_mem_PAIRS (h : pair ∈ PAIRS) : pair.2 ≠ pair.1 := by
  revert pair
  decide

theorem bracketStep_open : bracketStep pair pair.1 = 1 := if_pos rfl

theorem bracketStep_close (h : pair.2 ≠ pair.1) :
    bracketStep pair pair.2 = -1 := by
  rw [bracketStep, if_neg h, if_pos rfl]

theorem bracketStep_other {c : Char} (hopen : c ≠ pair.1)
    (hclose : c ≠ pair.2) : bracketStep pair c = 0 := by
  rw [bracketStep, if_neg hopen, if_neg hclose]

-- == scans

/-- The scan to the left stops at the first place that is less deep than where
it started; `depth` is how much deeper it is at the moment. -/
theorem openBefore_spec (hpair : pair.2 ≠ pair.1) {i depth : Nat} {h₀ : Int}
    (hi : i ≤ chars.length)
    (hdepth : height (bracketStep pair) chars i = h₀ + depth) :
    match openBefore pair chars i depth with
    | some op => op < i ∧ chars[op]? = some pair.1 ∧
        height (bracketStep pair) chars op + 1 = h₀ ∧
        ∀ j, op < j → j ≤ i → h₀ ≤ height (bracketStep pair) chars j
    | none => ∀ j ≤ i, h₀ ≤ height (bracketStep pair) chars j := by
  induction i generalizing depth with
  | zero =>
      intro j hj
      obtain rfl : j = 0 := by omega
      omega
  | succ i ih =>
      have hc : chars[i]? = some chars[i] := List.getElem?_eq_getElem hi
      have hstep : height (bracketStep pair) chars (i + 1) =
          height (bracketStep pair) chars i + bracketStep pair chars[i] :=
        Height.height_succ hc
      -- What holds of the rest of the way holds of this place too.
      have hmore : ∀ {depth' : Nat},
          height (bracketStep pair) chars i = h₀ + depth' →
          match openBefore pair chars i depth' with
          | some op => op < i + 1 ∧ chars[op]? = some pair.1 ∧
              height (bracketStep pair) chars op + 1 = h₀ ∧
              ∀ j, op < j → j ≤ i + 1 →
                h₀ ≤ height (bracketStep pair) chars j
          | none => ∀ j ≤ i + 1, h₀ ≤ height (bracketStep pair) chars j := by
        intro depth' hdepth'
        have hrest := ih (by omega) hdepth'
        cases hscan : openBefore pair chars i depth' with
        | none =>
            rw [hscan] at hrest
            intro j hj
            rcases Nat.lt_or_eq_of_le hj with hj | rfl
            · exact hrest j (by omega)
            · omega
        | some op =>
            rw [hscan] at hrest
            obtain ⟨hlt, hopen, hop, hbetween⟩ := hrest
            refine ⟨by omega, hopen, hop, fun j hopj hj => ?_⟩
            rcases Nat.lt_or_eq_of_le hj with hj | rfl
            · exact hbetween j hopj (by omega)
            · omega
      rw [openBefore]
      by_cases hclose : chars[i]? = some pair.2
      · rw [if_pos hclose]
        rw [hc, Option.some_inj] at hclose
        rw [hclose, bracketStep_close hpair] at hstep
        exact hmore (by omega)
      · rw [if_neg hclose]
        by_cases hopen : chars[i]? = some pair.1
        · rw [if_pos hopen]
          have hval := hopen
          rw [hc, Option.some_inj] at hval
          rw [hval, bracketStep_open] at hstep
          by_cases hzero : depth = 0
          · rw [if_pos hzero]
            refine ⟨Nat.lt_succ_self i, hopen, by omega, fun j hij hj => ?_⟩
            obtain rfl : j = i + 1 := by omega
            omega
          · rw [if_neg hzero]
            exact hmore (by omega)
        · rw [if_neg hopen]
          rw [hc, Option.some_inj] at hclose hopen
          rw [bracketStep_other hopen hclose] at hstep
          exact hmore (by omega)

/-- The scan to the right stops at the first closer behind which it is less
deep than where it started. -/
theorem closeAfter_spec (hpair : pair.2 ≠ pair.1) {j depth : Nat} {h₀ : Int}
    {rest : List Char} (hrest : rest = chars.drop j)
    (hdepth : height (bracketStep pair) chars j = h₀ + depth) :
    match closeAfter pair depth j rest with
    | some cl => j ≤ cl ∧ chars[cl]? = some pair.2 ∧
        height (bracketStep pair) chars (cl + 1) + 1 = h₀ ∧
        ∀ i, j ≤ i → i ≤ cl → h₀ ≤ height (bracketStep pair) chars i
    | none => ∀ i, j ≤ i → h₀ ≤ height (bracketStep pair) chars i := by
  induction rest generalizing j depth with
  | nil =>
      intro i hji
      have hlen : chars.length ≤ j := List.drop_eq_nil_iff.mp hrest.symm
      rw [Height.height_of_le (Nat.le_trans hlen hji),
        ← Height.height_of_le hlen]
      omega
  | cons c rest ih =>
      have hc : chars[j]? = some c := by
        rw [← List.head?_drop, ← hrest, List.head?_cons]
      have hrest' : rest = chars.drop (j + 1) := by
        rw [← List.drop_drop, ← hrest, List.drop_one, List.tail_cons]
      have hstep : height (bracketStep pair) chars (j + 1) =
          height (bracketStep pair) chars j + bracketStep pair c :=
        Height.height_succ hc
      have hmore : ∀ {depth' : Nat},
          height (bracketStep pair) chars (j + 1) = h₀ + depth' →
          match closeAfter pair depth' (j + 1) rest with
          | some cl => j ≤ cl ∧ chars[cl]? = some pair.2 ∧
              height (bracketStep pair) chars (cl + 1) + 1 = h₀ ∧
              ∀ i, j ≤ i → i ≤ cl → h₀ ≤ height (bracketStep pair) chars i
          | none => ∀ i, j ≤ i →
              h₀ ≤ height (bracketStep pair) chars i := by
        intro depth' hdepth'
        have hscan := ih hrest' hdepth'
        cases hclose : closeAfter pair depth' (j + 1) rest with
        | none =>
            rw [hclose] at hscan
            intro i hji
            rcases Nat.lt_or_eq_of_le hji with hji | rfl
            · exact hscan i hji
            · omega
        | some cl =>
            rw [hclose] at hscan
            obtain ⟨hle, hchar, hcl, hbetween⟩ := hscan
            refine ⟨by omega, hchar, hcl, fun i hji hi => ?_⟩
            rcases Nat.lt_or_eq_of_le hji with hji | rfl
            · exact hbetween i hji hi
            · omega
      rw [closeAfter]
      by_cases hopen : c = pair.1
      · rw [if_pos hopen]
        rw [hopen, bracketStep_open] at hstep
        exact hmore (by omega)
      · rw [if_neg hopen]
        by_cases hclose : c = pair.2
        · rw [if_pos hclose]
          rw [hclose, bracketStep_close hpair] at hstep
          by_cases hzero : depth = 0
          · rw [if_pos hzero]
            refine ⟨Nat.le_refl j, by rw [hc, hclose], by omega,
              fun i hji hij => ?_⟩
            obtain rfl : i = j := by omega
            omega
          · rw [if_neg hzero]
            exact hmore (by omega)
        · rw [if_neg hclose]
          rw [bracketStep_other hopen hclose] at hstep
          exact hmore (by omega)

-- == the search

/-- The innermost pair of a kind that opens before the selection and closes
behind its start, if the pair reaches the end of the selection. -/
structure Reaching (chars : List Char) (s e : Nat) (pair : Char × Char)
    (op cl : Nat) : Prop where
  matched : Matched pair chars op cl
  before : op < s
  behind : s ≤ cl
  innermost : ∀ op' cl', Matched pair chars op' cl' → op' < s → s ≤ cl' →
    op' ≤ op ∧ cl ≤ cl'
  reaches : e ≤ cl + 1

/-- The pair that both scans find. -/
theorem scans_innermost (hpair : pair.2 ≠ pair.1) (hs : s ≤ chars.length)
    {op cl : Nat} (hop : openBefore pair chars s 0 = some op)
    (hcl : closeAfter pair 0 (op + 1) (chars.drop (op + 1)) = some cl) :
    Matched pair chars op cl ∧ op < s ∧ s ≤ cl ∧
      ∀ op' cl', Matched pair chars op' cl' → op' < s → s ≤ cl' →
        op' ≤ op ∧ cl ≤ cl' := by
  have hstart : height (bracketStep pair) chars s =
      height (bracketStep pair) chars s + (0 : Nat) := (Int.add_zero _).symm
  have hleft := openBefore_spec hpair hs hstart
  rw [hop] at hleft
  obtain ⟨hlt, hopen, hheight, hbefore⟩ := hleft
  have hnext : height (bracketStep pair) chars (op + 1) =
      height (bracketStep pair) chars op + 1 :=
    bracketStep_open ▸ Height.height_succ hopen
  have hright := closeAfter_spec hpair (Eq.refl (chars.drop (op + 1)))
    (show _ = height (bracketStep pair) chars s + ((0 : Nat) : Int) by omega)
  rw [hcl] at hright
  obtain ⟨hle, hclose, hafter, hbehind⟩ := hright
  have hscl : s ≤ cl := by
    by_contra hlt'
    have hdeep := hbefore (cl + 1) (by omega) (by omega)
    omega
  refine ⟨⟨hopen, hclose, ?_⟩, hlt, hscl, ?_⟩
  · exact Height.Pair.of_valley hlt hscl (by omega) (by omega) hbefore
      fun i hsi hi => hbehind i (by omega) hi
  · intro op' cl' hm hop' hcl'
    exact ⟨hm.nested.left_le hop' hcl' hbefore,
      hm.nested.le_right hop' hcl' fun i hsi hi => hbehind i (by omega) hi⟩

/-- Where a pair is around the start of the selection, both scans stop. -/
theorem scans_find (hpair : pair.2 ≠ pair.1) (hs : s ≤ chars.length)
    {op' cl' : Nat} (hm : Matched pair chars op' cl') (hop' : op' < s)
    (hcl' : s ≤ cl') : ∃ op cl, openBefore pair chars s 0 = some op ∧
      closeAfter pair 0 (op + 1) (chars.drop (op + 1)) = some cl := by
  have hdeeper := hm.nested.deeper s hop' hcl'
  have hstart : height (bracketStep pair) chars s =
      height (bracketStep pair) chars s + (0 : Nat) := (Int.add_zero _).symm
  have hleft := openBefore_spec hpair hs hstart
  cases hop : openBefore pair chars s 0 with
  | none =>
      rw [hop] at hleft
      have hlow := hleft op' (by omega)
      omega
  | some op =>
      rw [hop] at hleft
      obtain ⟨hlt, hopen, hheight, -⟩ := hleft
      have hnext : height (bracketStep pair) chars (op + 1) =
          height (bracketStep pair) chars op + 1 :=
        bracketStep_open ▸ Height.height_succ hopen
      have hright := closeAfter_spec hpair (Eq.refl (chars.drop (op + 1)))
        (show _ = height (bracketStep pair) chars s + ((0 : Nat) : Int) by
          omega)
      cases hcl : closeAfter pair 0 (op + 1) (chars.drop (op + 1)) with
      | none =>
          rw [hcl] at hright
          have hlow := hright (cl' + 1) (by omega)
          have hsame := hm.nested.same
          omega
      | some cl => exact ⟨op, cl, rfl, hcl⟩

theorem enclosingOf_eq_some (hpair : pair.2 ≠ pair.1)
    (hs : s ≤ chars.length) {found : (Nat × Nat) × (Nat × Nat)} :
    enclosingOf chars s e pair = some found ↔
      ∃ op cl, Reaching chars s e pair op cl ∧
        found = ((op + 1, cl), (op, cl + 1)) := by
  constructor
  · intro h
    obtain ⟨op, hop, h⟩ := Option.bind_eq_some_iff.mp h
    obtain ⟨cl, hcl, h⟩ := Option.bind_eq_some_iff.mp h
    obtain ⟨hm, hlt, hle, hinner⟩ := scans_innermost hpair hs hop hcl
    split at h
    · rename_i hreach
      exact ⟨op, cl, ⟨hm, hlt, hle, hinner, hreach⟩, (Option.some.inj h).symm⟩
    · cases h
  · rintro ⟨op, cl, h, rfl⟩
    obtain ⟨op', cl', hop, hcl⟩ := scans_find hpair hs h.matched h.before
      h.behind
    obtain ⟨hm, hlt, hle, hinner⟩ := scans_innermost hpair hs hop hcl
    -- Both are innermost.
    have hout := hinner op cl h.matched h.before h.behind
    have hin := h.innermost op' cl' hm hlt hle
    obtain rfl : op = op' := by omega
    obtain rfl : cl = cl' := by omega
    unfold enclosingOf
    rw [hop, Option.bind_eq_bind, Option.bind_some, hcl]
    exact if_pos h.reaches

theorem enclosingOf_eq_none (hpair : pair.2 ≠ pair.1)
    (hs : s ≤ chars.length) : enclosingOf chars s e pair = none ↔
      ∀ op cl, ¬Reaching chars s e pair op cl := by
  rw [Option.eq_none_iff_forall_ne_some]
  constructor
  · intro h op cl hreach
    exact h _ ((enclosingOf_eq_some hpair hs).mpr ⟨op, cl, hreach, rfl⟩)
  · intro h found hfound
    obtain ⟨op, cl, hreach, -⟩ := (enclosingOf_eq_some hpair hs).mp hfound
    exact h op cl hreach

/-- The pair that is tried: of the first kind that has one. -/
structure Tried (chars : List Char) (s e : Nat) (pair : Char × Char)
    (op cl : Nat) : Prop where
  reaching : Reaching chars s e pair op cl
  first : ∃ before behind, PAIRS = before ++ pair :: behind ∧
    ∀ other ∈ before, ∀ op' cl', ¬Reaching chars s e other op' cl'

theorem enclosingPair_eq_some (hs : s ≤ chars.length)
    {found : (Nat × Nat) × (Nat × Nat)} :
    enclosingPair chars s e = some found ↔ ∃ pair op cl,
      Tried chars s e pair op cl ∧ found = ((op + 1, cl), (op, cl + 1)) := by
  rw [enclosingPair, List.findSome?_eq_some_iff]
  constructor
  · rintro ⟨before, pair, behind, hpairs, hfound, hbefore⟩
    have hmem : pair ∈ PAIRS :=
      hpairs ▸ List.mem_append_right _ List.mem_cons_self
    obtain ⟨op, cl, hreach, heq⟩ :=
      (enclosingOf_eq_some (ne_of_mem_PAIRS hmem) hs).mp hfound
    refine ⟨pair, op, cl, ⟨hreach, before, behind, hpairs, ?_⟩, heq⟩
    intro other hother
    have hmem' : other ∈ PAIRS := hpairs ▸ List.mem_append_left _ hother
    exact (enclosingOf_eq_none (ne_of_mem_PAIRS hmem') hs).mp
      (hbefore other hother)
  · rintro ⟨pair, op, cl, ⟨hreach, before, behind, hpairs, hbefore⟩, heq⟩
    have hmem : pair ∈ PAIRS :=
      hpairs ▸ List.mem_append_right _ List.mem_cons_self
    refine ⟨before, pair, behind, hpairs,
      (enclosingOf_eq_some (ne_of_mem_PAIRS hmem) hs).mpr
        ⟨op, cl, hreach, heq⟩, fun other hother => ?_⟩
    have hmem' : other ∈ PAIRS := hpairs ▸ List.mem_append_left _ hother
    exact (enclosingOf_eq_none (ne_of_mem_PAIRS hmem') hs).mpr
      (hbefore other hother)

-- == the smallest region

/-- How long a region is. -/
def regionSize (r : Nat × Nat) : Nat := r.2 - r.1

/-- The inside of a pair, or the whole of it. -/
def IsRegionOf (op cl : Nat) (r : Nat × Nat) : Prop :=
  r = (op + 1, cl) ∨ r = (op, cl + 1)

/-- A region that is among the candidates. -/
def IsCandidate (U : Unicode) (chars : List Char) (s e : Nat)
    (r : Nat × Nat) : Prop :=
  wordBounds U chars s e = some r ∨
    (∃ pair op cl, Tried chars s e pair op cl ∧ IsRegionOf op cl r) ∨
    r = lineBounds chars s e ∨ r = paragraphBounds chars s e ∨
    r = (0, chars.length)

theorem mem_candidates {U : Unicode} (hs : s ≤ chars.length)
    {r : Nat × Nat} :
    r ∈ candidates U chars s e ↔ IsCandidate U chars s e r := by
  unfold candidates IsCandidate
  rw [List.mem_append, List.mem_append, Option.mem_toList, or_assoc]
  refine or_congr Iff.rfl (or_congr ?_ (by simp))
  cases hfound : enclosingPair chars s e with
  | none =>
      refine ⟨fun h => absurd h List.not_mem_nil, ?_⟩
      rintro ⟨pair, op, cl, htried, -⟩
      have hsome := (enclosingPair_eq_some hs).mpr ⟨pair, op, cl, htried, rfl⟩
      rw [hfound] at hsome
      cases hsome
  | some found =>
      obtain ⟨pair, op, cl, htried, rfl⟩ :=
        (enclosingPair_eq_some hs).mp hfound
      dsimp only
      constructor
      · intro hmem
        refine ⟨pair, op, cl, htried, ?_⟩
        rcases List.mem_cons.mp hmem with rfl | hmem
        · exact .inl rfl
        · exact .inr (List.mem_singleton.mp hmem)
      · rintro ⟨pair', op', cl', htried', hr⟩
        have hsome :=
          (enclosingPair_eq_some hs).mpr ⟨pair', op', cl', htried', rfl⟩
        rw [hfound] at hsome
        cases hsome
        rcases hr with rfl | rfl
        · exact List.mem_cons_self
        · exact List.mem_cons_of_mem _ List.mem_cons_self

-- == within the text

theorem walkRight_le_length (p : Char → Bool) {i : Nat}
    (h : i ≤ chars.length) : walkRight p chars i ≤ chars.length := by
  have hlen := (List.takeWhile_prefix p (l := chars.drop i)).length_le
  rw [List.length_drop] at hlen
  unfold walkRight
  omega

theorem paragraphEnd_le {stop : Nat} (h : stop ≤ chars.length) :
    paragraphEnd chars stop ≤ chars.length := by
  induction hn : chars.length - stop using Nat.strong_induction_on
    generalizing stop with
  | _ n ih =>
      rw [paragraphEnd]
      split
      · exact h
      · split
        · exact h
        · have hright : walkRight (· ≠ '\n') chars (stop + 1) ≤
              chars.length := walkRight_le_length _ (by omega)
          have hle := le_walkRight (· ≠ '\n') chars (stop + 1)
          exact ih _ (by omega) hright rfl

theorem wordBounds_le {U : Unicode} (hs : s ≤ chars.length)
    (he : e ≤ chars.length) {r : Nat × Nat}
    (h : wordBounds U chars s e = some r) : r.2 ≤ chars.length := by
  obtain ⟨⟨start, stop⟩, hanchor, hr⟩ := Option.bind_eq_some_iff.mp h
  have hstop : stop ≤ chars.length := by
    unfold wordAnchor at hanchor
    split at hanchor
    · cases hanchor
      omega
    · split at hanchor
      · cases hanchor
        omega
      · cases hanchor
  dsimp only at hr
  split at hr
  · cases hr
    exact walkRight_le_length _ hstop
  · cases hr

/-- The candidates are in the text. -/
theorem IsCandidate.le_length {U : Unicode} {r : Nat × Nat}
    (h : IsCandidate U chars s e r) (hs : s ≤ chars.length)
    (he : e ≤ chars.length) : r.2 ≤ chars.length := by
  have hline : (lineBounds chars s e).2 ≤ chars.length :=
    walkRight_le_length _ (Nat.min_le_right _ _)
  rcases h with hword | ⟨pair, op, cl, htried, hr⟩ | rfl | rfl | rfl
  · exact wordBounds_le hs he hword
  · have hcl := htried.reaching.matched.nested.lt_length
    rcases hr with rfl | rfl
    · exact Nat.le_of_lt hcl
    · exact hcl
  · exact hline
  · exact paragraphEnd_le hline
  · exact Nat.le_refl _

-- == the function

variable {U : Unicode} {text : List Char} {sel : Nat × Nat}

/-- The smallest candidate beyond the selection, if there is one. -/
theorem expandRegion_spec (hsel : sel.1 ≤ sel.2) :
    (expandRegion U text sel = .ok none ∧
      clamp text sel = (0, text.length)) ∨
    ∃ r, expandRegion U text sel = .ok (some r) ∧
      IsCandidate U text (clamp text sel).1 (clamp text sel).2 r ∧
      Beyond r (clamp text sel) ∧
      ∀ other, IsCandidate U text (clamp text sel).1 (clamp text sel).2 other →
        Beyond other (clamp text sel) → regionSize r ≤ regionSize other := by
  cases hclamp : clamp text sel with
  | mk s e =>
      have hs : s ≤ text.length := by
        rw [← show (clamp text sel).1 = s by rw [hclamp]]
        exact Nat.min_le_right _ _
      have he : e ≤ text.length := by
        rw [← show (clamp text sel).2 = e by rw [hclamp]]
        exact Nat.min_le_right _ _
      have hse : s ≤ e := by
        have hmin : (clamp text sel).1 ≤ (clamp text sel).2 := by
          unfold clamp
          dsimp only
          omega
        rwa [hclamp] at hmin
      have hfits : ∀ r, r ∈ (candidates U text s e).filter (Beyond · (s, e)) ↔
          IsCandidate U text s e r ∧ Beyond r (s, e) := fun r => by
        rw [List.mem_filter, mem_candidates hs, decide_eq_true_iff]
      obtain ⟨sizes, hsizes⟩ : ∃ sizes,
          ((candidates U text s e).filter (Beyond · (s, e))).mapM
            (fun r : Nat × Nat => checkedSub r.2 r.1) = .ok sizes := by
        refine mapM_ok fun r hr => ⟨_, checkedSub_of_le ?_⟩
        obtain ⟨-, hleft, hright, -⟩ := (hfits r).mp hr
        dsimp only at hleft hright
        omega
      have heq : expandRegion U text sel =
          .ok (((candidates U text s e).filter (Beyond · (s, e))).minOn?
            regionSize) := by
        unfold expandRegion
        rw [hclamp]
        dsimp only
        rw [hsizes]
        rfl
      rw [heq]
      cases hmin : ((candidates U text s e).filter (Beyond · (s, e))).minOn?
          regionSize with
      | none =>
          refine .inl ⟨rfl, ?_⟩
          have hnil : ¬Beyond (0, text.length) (s, e) := by
            intro hbeyond
            have hmem := (hfits (0, text.length)).mpr
              ⟨.inr (.inr (.inr (.inr rfl))), hbeyond⟩
            have hsome := List.isSome_minOn?_of_mem (f := regionSize) hmem
            rw [hmin] at hsome
            cases hsome
          unfold Beyond at hnil
          dsimp only at hnil
          have hs0 : s = 0 := by omega
          have hen : e = text.length := by omega
          rw [hs0, hen]
      | some r =>
          obtain ⟨hcandidate, hbeyond⟩ := (hfits r).mp (List.minOn?_mem hmin)
          refine .inr ⟨r, rfl, hcandidate, hbeyond, ?_⟩
          intro other hother hbeyond'
          have hmem := (hfits other).mpr ⟨hother, hbeyond'⟩
          have hle := List.apply_get_minOn?_le_of_mem (f := regionSize) hmem
          simp only [hmin, Option.get_some] at hle
          exact hle

-- == repeating

/-- One step of growing a selection. -/
def Expands (U : Unicode) (text : List Char) (sel r : Nat × Nat) : Prop :=
  expandRegion U text sel = .ok (some r)

theorem clamp_le (hsel : sel.1 ≤ sel.2) :
    (clamp text sel).1 ≤ (clamp text sel).2 := by
  unfold clamp
  dsimp only
  omega

/-- A selection that is the whole text does not grow. -/
theorem expandRegion_whole (hsel : sel.1 ≤ sel.2)
    (h : clamp text sel = (0, text.length)) :
    expandRegion U text sel = .ok none := by
  rcases expandRegion_spec (U := U) hsel with ⟨heq, -⟩ |
    ⟨r, -, hcandidate, hbeyond, -⟩
  · exact heq
  · rw [h] at hcandidate hbeyond
    have hle := hcandidate.le_length (Nat.zero_le _) (Nat.le_refl _)
    unfold Beyond at hbeyond
    dsimp only at hbeyond
    omega

/-- Growing a selection again and again ends with the whole text. -/
theorem expands_whole (hsel : sel.1 ≤ sel.2) :
    ∃ last, Relation.ReflTransGen (Expands U text) sel last ∧
      clamp text last = (0, text.length) := by
  induction hn : text.length - regionSize (clamp text sel) using
    Nat.strong_induction_on generalizing sel with
  | _ n ih =>
      rcases expandRegion_spec (U := U) hsel with ⟨-, hwhole⟩ |
        ⟨r, hr, hcandidate, hbeyond, -⟩
      · exact ⟨sel, .refl, hwhole⟩
      · have hle : (clamp text sel).1 ≤ (clamp text sel).2 := clamp_le hsel
        have hend : (clamp text sel).2 ≤ text.length := Nat.min_le_right _ _
        have hlen := hcandidate.le_length (Nat.le_trans hle hend) hend
        obtain ⟨hleft, hright, hstrict⟩ := hbeyond
        have hself : clamp text r = r := by
          refine Prod.ext ?_ ?_
          · exact Nat.min_eq_left (by omega)
          · exact Nat.min_eq_left hlen
        obtain ⟨last, hruns, hlast⟩ := ih
          (text.length - regionSize (clamp text r))
          (by rw [hself]; unfold regionSize at hn ⊢; omega) (by omega) rfl
        exact ⟨last, .head hr hruns, hlast⟩

-- == the law

/-- What a selection is to grow to: the whole text does not grow, another
selection to a region strictly beyond it that is no longer than any inside or
whole of a bracket pair strictly beyond it; and in the end it is the whole
text. -/
structure ExpandsWell (U : Unicode) (text : List Char) (sel : Nat × Nat) :
    Prop where
  grows : clamp text sel ≠ (0, text.length) →
    ∃ r, expandRegion U text sel = .ok (some r) ∧ Beyond r (clamp text sel) ∧
      ∀ pair ∈ PAIRS, ∀ op cl, Matched pair text op cl →
        ∀ region, IsRegionOf op cl region → Beyond region (clamp text sel) →
          regionSize r ≤ regionSize region
  stops : clamp text sel = (0, text.length) →
    expandRegion U text sel = .ok none
  ends : ∃ last, Relation.ReflTransGen (Expands U text) sel last ∧
    clamp text last = (0, text.length)

/-- A pair that is not looked at: it opens where the selection starts, or
closes before that, or is of another kind than the one that is tried. -/
def Missed (chars : List Char) (s e : Nat) (pair : Char × Char)
    (op cl : Nat) : Prop :=
  op = s ∨ cl < s ∨ ∀ op' cl', ¬Tried chars s e pair op' cl'

/-- A pair that is not missed is no smaller than the one that is tried. -/
theorem exists_candidate {op cl : Nat} {region : Nat × Nat}
    (hm : Matched pair chars op cl) (hregion : IsRegionOf op cl region)
    (hbeyond : Beyond region (s, e)) (h : ¬Missed chars s e pair op cl) :
    ∃ other, IsCandidate U chars s e other ∧ Beyond other (s, e) ∧
      regionSize other ≤ regionSize region := by
  unfold Missed at h
  push Not at h
  obtain ⟨hne, hbehind, op', cl', htried⟩ := h
  have hbefore : op < s := by
    have hleft := hbeyond.1
    rcases hregion with rfl | rfl
    · exact hleft
    · exact Nat.lt_of_le_of_ne hleft hne
  have hreach := htried.reaching
  obtain ⟨hop, hcl⟩ := hreach.innermost op cl hm hbefore hbehind
  have hlt := hreach.matched.nested.lt
  rcases hreach.matched.nested.eq_of_le hm.nested hop hcl with
    ⟨rfl, rfl⟩ | ⟨hop, hcl⟩
  · exact ⟨region, .inr (.inl ⟨pair, op, cl, htried, hregion⟩), hbeyond,
      Nat.le_refl _⟩
  · -- The pair lies around the one that is tried.
    refine ⟨(op', cl' + 1),
      .inr (.inl ⟨pair, op', cl', htried, .inr rfl⟩), ?_, ?_⟩
    · exact ⟨Nat.le_of_lt hreach.before, hreach.reaches, .inl hreach.before⟩
    · rcases hregion with rfl | rfl
      · show cl' + 1 - op' ≤ cl - (op + 1)
        omega
      · show cl' + 1 - op' ≤ cl + 1 - op
        omega

/-- Selections grow as they are to exactly where no pair that is missed has an
inside or whole beyond the selection that is smaller than every candidate:
the word, the line, the paragraph, the text and the pair that is tried. -/
theorem expand_region_law (U : Unicode) (text : List Char) (sel : Nat × Nat)
    (hsel : sel.1 ≤ sel.2) :
    ExpandsWell U text sel ↔
      ∀ pair ∈ PAIRS, ∀ op cl, Matched pair text op cl →
        Missed text (clamp text sel).1 (clamp text sel).2 pair op cl →
        ∀ region, IsRegionOf op cl region → Beyond region (clamp text sel) →
          ∃ other, IsCandidate U text (clamp text sel).1 (clamp text sel).2
              other ∧
            Beyond other (clamp text sel) ∧
            regionSize other ≤ regionSize region := by
  constructor
  · intro h pair hpair op cl hm _ region hregion hbeyond
    rcases expandRegion_spec (U := U) hsel with ⟨-, hwhole⟩ |
      ⟨r, hr, hcandidate, hbeyond', -⟩
    · -- Nothing is beyond the whole text.
      have hlen := hm.nested.lt_length
      rw [hwhole] at hbeyond
      unfold Beyond at hbeyond
      rcases hregion with rfl | rfl
      · dsimp only at hbeyond
        omega
      · dsimp only at hbeyond
        omega
    · have hnot : clamp text sel ≠ (0, text.length) := by
        intro hwhole
        rw [expandRegion_whole hsel hwhole] at hr
        cases hr
      obtain ⟨r', hr', -, hsmall⟩ := h.grows hnot
      rw [hr] at hr'
      cases hr'
      exact ⟨r, hcandidate, hbeyond',
        hsmall pair hpair op cl hm region hregion hbeyond⟩
  · intro h
    refine ⟨fun hnot => ?_, expandRegion_whole hsel, expands_whole hsel⟩
    rcases expandRegion_spec (U := U) hsel with ⟨-, hwhole⟩ |
      ⟨r, hr, -, hbeyond', hmin⟩
    · exact absurd hwhole hnot
    · refine ⟨r, hr, hbeyond', ?_⟩
      intro pair hpair op cl hm region hregion hbeyond
      by_cases hmissed :
          Missed text (clamp text sel).1 (clamp text sel).2 pair op cl
      · obtain ⟨other, hother, hbeyond, hle⟩ :=
          h pair hpair op cl hm hmissed region hregion hbeyond
        exact Nat.le_trans (hmin other hother hbeyond) hle
      · obtain ⟨other, hother, hbeyond, hle⟩ :=
          exists_candidate hm hregion hbeyond hmissed
        exact Nat.le_trans (hmin other hother hbeyond) hle

/-- A word in brackets is selected first. -/
theorem expand_region_law_word :
    ExpandsWell Unicode.ascii ['(', 'a', ')'] (1, 1) := by
  refine (expand_region_law Unicode.ascii ['(', 'a', ')'] (1, 1)
    (by decide)).mpr fun pair hpair op cl hm _ region hregion hbeyond => ?_
  refine ⟨(1, 2), .inl (by decide), by decide, ?_⟩
  -- A region beyond the caret has a char in it.
  obtain ⟨hleft, hright, hstrict⟩ := hbeyond
  show 1 ≤ region.2 - region.1
  have hclamp : clamp ['(', 'a', ')'] (1, 1) = (1, 1) := rfl
  rw [hclamp] at hleft hright hstrict
  omega

/-- Round brackets are tried first, so the square ones inside are missed. -/
theorem not_expand_region_law_nested :
    ¬ExpandsWell Unicode.ascii ['(', 'a', '[', 'b', ']', ')'] (3, 4) := by
  intro h
  obtain ⟨r, hr, -, hsmall⟩ := h.grows (by decide)
  have hparagraph : paragraphBounds ['(', 'a', '[', 'b', ']', ')'] 3 4 =
      (0, 6) := by
    have hline : lineBounds ['(', 'a', '[', 'b', ']', ')'] 3 4 = (0, 6) := by
      decide
    rw [paragraphBounds, hline, paragraphStart, paragraphEnd]
    rfl
  have hres : expandRegion Unicode.ascii ['(', 'a', '[', 'b', ']', ')']
      (3, 4) = .ok (some (1, 5)) := by
    have hclamp : clamp ['(', 'a', '[', 'b', ']', ')'] (3, 4) = (3, 4) := rfl
    rw [expandRegion, hclamp]
    dsimp only
    rw [candidates, hparagraph]
    decide
  rw [hres] at hr
  cases hr
  have hm : Matched ('[', ']') ['(', 'a', '[', 'b', ']', ')'] 2 4 := by
    refine ⟨rfl, rfl, by decide, by decide, fun i hi hi' => ?_⟩
    obtain rfl | rfl : i = 3 ∨ i = 4 := by omega
    · decide
    · decide
  exact absurd (hsmall ('[', ']') (by decide) 2 4 hm (2, 5) (.inr rfl)
    (by decide)) (by decide)

end Zmax.PowerEdit
