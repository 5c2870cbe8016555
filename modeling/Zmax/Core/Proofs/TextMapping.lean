/-
The runs of text properties through a change of the text: they stay
canonical, and a char that is retained keeps its properties.

A boundary in front of a retained char, or at it, is moved in front of
it or to it, and a boundary behind it stays behind it, whichever side
the boundary is associated with (`mapped_le`, `lt_mapped`). So the runs
over the char are the same before and after. The boundaries come in
order, which is why the sweep moves each of them as `map_pos` would, and
why the runs stay apart (`mapped_mono`).
-/
import Zmax.Core.Proofs.Changes
import Zmax.Core.Proofs.Positions
import Zmax.Core.TextProps

namespace Zmax

open Script Run

variable {U : Unicode}

namespace ChangeSet

variable {c : ChangeSet} {cur cur' : Cursor} {p q i j : Nat}
  {assoc : Assoc}

-- == one turn

/-- Where an insert that nothing is deleted behind moves its place. -/
private theorem image_insert {s : Tendril} {rest : List Operation}
    (heq : cur.rest = .insert s :: rest)
    (hno : ∀ len tail, rest = .delete len :: tail → False)
    (hcov : cur.oldPos = p) :
    image U cur p assoc = cur.newPos + assoc.insertOffset U s := by
  unfold image Cursor.map
  rw [heq]
  split
  case h_5 heq' =>
    injection heq' with hs hr
    injection hs with hs
    subst hs
    rw [if_pos hcov, Option.getD_some]
  all_goals next heq' => simp_all

/-- A turn moves its positions between where it starts in the new text
and where a retained char at or behind them ends up. -/
theorem image_between (hcov : cur.Covers p) (hle : cur.oldPos ≤ p) :
    cur.newPos ≤ image U cur p assoc ∧
      ∀ i j, p ≤ i → kept cur.rest (i - cur.oldPos) = some j →
        image U cur p assoc ≤ cur.newPos + j := by
  unfold Cursor.Covers at hcov
  split at hcov
  case h_1 heq =>
    unfold image Cursor.map
    simp only [heq, if_pos hcov, Option.getD_some]
    exact ⟨le_rfl, fun i j _ _ => Nat.le_add_right _ _⟩
  case h_2 len rest heq =>
    unfold image Cursor.map
    simp only [heq, if_pos hcov, Option.getD_some]
    refine ⟨Nat.le_add_right _ _, fun i j hi hk => ?_⟩
    rw [kept] at hk
    split at hk
    · cases hk
      omega
    · obtain ⟨j', -, rfl⟩ := Option.map_eq_some_iff.mp hk
      omega
  case h_3 len rest heq =>
    unfold image Cursor.map
    simp only [heq, if_pos hcov, Option.getD_some]
    exact ⟨le_rfl, fun i j _ _ => Nat.le_add_right _ _⟩
  case h_4 s len rest heq =>
    have hoff := @insertOffset_le U assoc s
    have hrest : ∀ i j, kept (.insert s :: .delete len :: rest) (i - cur.oldPos)
        = some j → s.length ≤ j := by
      intro i j hk
      rw [kept] at hk
      obtain ⟨j', -, rfl⟩ := Option.map_eq_some_iff.mp hk
      exact Nat.le_add_left _ _
    unfold image Cursor.map
    simp only [heq, if_pos hcov]
    refine ⟨?_, fun i j hi hk => ?_⟩
    · split_ifs <;> simp
    · have hj := hrest i j hk
      split_ifs <;> simp only [Option.getD_some] <;> omega
  case h_5 s rest hno heq =>
    rw [image_insert heq hno hcov, heq]
    have hoff := @insertOffset_le U assoc s
    refine ⟨Nat.le_add_right _ _, fun i j hi hk => ?_⟩
    rw [kept] at hk
    obtain ⟨j', -, rfl⟩ := Option.map_eq_some_iff.mp hk
    omega

/-- A turn moves a position that has a retained char of the turn in
front of it behind that char. -/
theorem lt_image (hcov : cur.Covers p) (hle : cur.oldPos ≤ i) (hi : i < p)
    (hk : kept cur.rest (i - cur.oldPos) = some j) :
    cur.newPos + j < image U cur p assoc := by
  unfold Cursor.Covers at hcov
  unfold image Cursor.map
  split at hcov
  case h_1 heq => omega
  case h_2 len rest heq =>
    simp only [heq, if_pos hcov, Option.getD_some]
    rw [heq, kept, if_pos (by omega)] at hk
    cases hk
    omega
  case h_3 len rest heq =>
    rw [heq, kept, if_pos (by omega)] at hk
    cases hk
  case h_4 s len rest heq =>
    rw [heq, kept, kept, if_pos (by omega)] at hk
    cases hk
  case h_5 s rest hno heq => omega

/-- A turn moves its positions no further than where the next one
starts. -/
theorem image_le_next (hcov : cur.Covers p) (hle : cur.oldPos ≤ p)
    (hn : cur.next = some cur') : image U cur p assoc ≤ cur'.newPos := by
  unfold Cursor.next at hn
  unfold Cursor.Covers at hcov
  unfold image Cursor.map
  split at hn
  case h_1 => cases hn
  case h_2 len rest heq =>
    injection hn with hn
    subst hn
    simp only [heq] at hcov ⊢
    rw [if_pos hcov, Option.getD_some]
    omega
  case h_3 len rest heq =>
    injection hn with hn
    subst hn
    simp only [heq] at hcov ⊢
    rw [if_pos hcov, Option.getD_some]
  case h_4 s len rest heq =>
    have hoff := @insertOffset_le U assoc s
    injection hn with hn
    subst hn
    simp only [heq] at hcov ⊢
    rw [if_pos hcov]
    split_ifs <;> simp only [Option.getD_some] <;> omega
  case h_5 s rest hno heq =>
    have hoff := @insertOffset_le U assoc s
    injection hn with hn
    subst hn
    dsimp only
    split_ifs
    · rw [Option.getD_some]
      omega
    · exact Nat.zero_le _

/-- Moved to the left, a position stays at the start of its turn, unless
the turn retains it. -/
theorem image_before (hcov : cur.Covers p)
    (hno : ∀ len rest, cur.rest ≠ .retain len :: rest) :
    image U cur p .before = cur.newPos := by
  unfold Cursor.Covers at hcov
  split at hcov
  case h_1 heq =>
    unfold image Cursor.map
    simp [heq, hcov]
  case h_2 len rest heq => exact absurd heq (hno len rest)
  case h_3 len rest heq =>
    unfold image Cursor.map
    simp [heq, hcov]
  case h_4 s len rest heq =>
    unfold image Cursor.map
    simp [heq, hcov, Assoc.insertOffset, Assoc.sticky]
  case h_5 s rest hno heq =>
    rw [image_insert heq hno hcov]
    rfl

/-- Within a turn a position moved to the left stays in front of one
moved to the right. -/
theorem image_mono (hp : cur.Covers p) (hq : cur.Covers q)
    (hle : cur.oldPos ≤ p) (hpq : p ≤ q) :
    image U cur p .before ≤ image U cur q .after := by
  by_cases hr : ∃ len rest, cur.rest = .retain len :: rest
  · obtain ⟨len, rest, heq⟩ := hr
    unfold Cursor.Covers at hp hq
    unfold image Cursor.map
    simp only [heq] at hp hq ⊢
    rw [if_pos hp, if_pos hq, Option.getD_some, Option.getD_some]
    omega
  · rw [image_before hp fun len rest heq => hr ⟨len, rest, heq⟩]
    exact (image_between hq (hle.trans hpq)).1

-- == the changes

/-- Along the chain the new position only grows. -/
theorem Leads.newPos_le {a b : Cursor} (h : a.Leads b) :
    a.newPos ≤ b.newPos := by
  induction h with
  | refl => exact le_rfl
  | tail _ hn ih =>
      obtain ⟨ops, -, -, -, -, hnew⟩ := Cursor.next_spec hn
      omega

/-- Where `map_pos` takes a position. -/
def mapped (U : Unicode) (c : ChangeSet) (pos : Nat) (assoc : Assoc) : Nat :=
  image U (c.home pos) pos assoc

/-- A retained char ends up where its place in the rest of the
operations says. -/
private theorem kept_of_standing (h : c.Standing cur) (hi : cur.oldPos ≤ i)
    (hk : kept c.changes i = some j) :
    ∃ j', kept cur.rest (i - cur.oldPos) = some j' ∧ j = cur.newPos + j' := by
  obtain ⟨ops, hc, -, hold, hnew⟩ := h
  rw [hc, kept_append_of_le _ (hold ▸ hi), ← hold, ← hnew] at hk
  obtain ⟨j', hj', rfl⟩ := Option.map_eq_some_iff.mp hk
  exact ⟨j', hj', Nat.add_comm _ _⟩

/-- A boundary in front of a retained char, or at it, stays there. -/
theorem mapped_le (hp : p ≤ oldLen c.changes) (hi : p ≤ i)
    (hk : kept c.changes i = some j) : mapped U c p assoc ≤ j := by
  obtain ⟨hcov, hle, hleads⟩ := home_spec hp
  obtain ⟨j', hj', rfl⟩ :=
    kept_of_standing (standing_of_leads hleads) (hle.trans hi) hk
  exact (image_between hcov hle).2 i j' hi hj'

/-- A boundary behind a retained char stays behind it. -/
theorem lt_mapped (hp : p ≤ oldLen c.changes) (hi : i < p)
    (hk : kept c.changes i = some j) : j < mapped U c p assoc := by
  obtain ⟨hcov, hle, hleads⟩ := home_spec hp
  have hstanding := standing_of_leads hleads
  by_cases hin : (c.home p).oldPos ≤ i
  · obtain ⟨j', hj', rfl⟩ := kept_of_standing hstanding hin hk
    exact lt_image hcov hin hi hj'
  · -- the char is in front of the whole turn
    obtain ⟨ops, hc, -, hold, hnew⟩ := hstanding
    rw [hc, kept_append_of_lt _ (by omega)] at hk
    have hlt := kept_lt (by omega) hk
    have hge := (@image_between U _ _ assoc hcov hle).1
    exact hlt.trans_le (hnew ▸ hge)

/-- Boundaries in order stay in order, the first one moved to the left
and the second one to the right. -/
theorem mapped_mono (hq : q ≤ oldLen c.changes) (hpq : p ≤ q) :
    mapped U c p .before ≤ mapped U c q .after := by
  obtain ⟨hcovp, hlep, hleadsp⟩ := home_spec (hpq.trans hq)
  obtain ⟨hcovq, hleq, -⟩ := home_spec hq
  unfold mapped
  rcases Cursor.seek_of_leads hleadsp (hlep.trans hpq) with heq | ⟨-, hat⟩
  · obtain ⟨ops, hc, -, hold, -⟩ := standing_of_leads hleadsp
    obtain ⟨-, -, hleads⟩ := Cursor.seek_spec (hlep.trans hpq)
      (show q ≤ (c.home p).oldPos + oldLen (c.home p).rest by
        rw [hold, ← oldLen_append, ← hc]
        exact hq)
    have heq : (c.home p).seek q = c.home q := heq
    rw [heq] at hleads
    rcases hleads.cases_head with hsame | ⟨cur', hn, hrest⟩
    · rw [← hsame] at hcovq ⊢
      exact image_mono hcovp hcovq hlep hpq
    · exact (image_le_next hcovp hlep hn).trans
        ((Leads.newPos_le hrest).trans (image_between hcovq hleq).1)
  · -- the first boundary's turn starts at the second one
    obtain rfl : p = q := by omega
    exact image_mono hcovp hcovq hlep le_rfl

-- == sorted positions

/-- From the home of an earlier position the sweep goes to the home of a
later one. -/
theorem place_home (hq : q ≤ oldLen c.changes) (hpq : p ≤ q) :
    c.place (c.home p) q = c.home q := by
  obtain ⟨hcov, hle, hleads⟩ := home_spec (hpq.trans hq)
  rw [place, if_neg (Nat.not_lt.mpr (hle.trans hpq))]
  rcases Cursor.seek_of_leads hleads (hle.trans hpq) with heq | ⟨-, hat⟩
  · exact heq
  · obtain rfl : p = q := by omega
    exact Cursor.seek_of_covers hcov

/-- The sweep moves positions in order each to its own image. -/
private theorem sweep_sorted {ps : List (Nat × Assoc)}
    (hs : ps.Pairwise fun x y => x.1 ≤ y.1)
    (hin : ∀ x ∈ ps, x.1 ≤ oldLen c.changes) {cur : Cursor}
    (hcur : ∀ x ∈ ps, c.place cur x.1 = c.home x.1) :
    sweep U c cur ps = ps.map fun x => mapped U c x.1 x.2 := by
  induction ps generalizing cur with
  | nil => rfl
  | cons x ps ih =>
      obtain ⟨hx, hs⟩ := List.pairwise_cons.mp hs
      obtain ⟨-, hin⟩ := List.forall_mem_cons.mp hin
      have hplace := hcur x List.mem_cons_self
      rw [sweep, hplace, List.map_cons]
      exact congrArg _ (ih hs hin fun y hy => place_home (hin y hy) (hx y hy))

/-- On positions in order `update_positions` moves each to its own
image. -/
theorem updatePositions_sorted {ps : List (Nat × Assoc)}
    (hs : ps.Pairwise fun x y => x.1 ≤ y.1)
    (hin : ∀ x ∈ ps, x.1 ≤ oldLen c.changes) :
    c.updatePositions U ps = .ok (ps.map fun x => mapped U c x.1 x.2) := by
  rw [updatePositions_eq hin,
    sweep_sorted hs hin fun x _ => place_start c x.1]

/-- Positions are moved within the new text. -/
theorem mapped_le_newLen (hp : p ≤ oldLen c.changes) :
    mapped U c p assoc ≤ newLen c.changes := by
  obtain ⟨-, hle, hleads⟩ := home_spec hp
  exact image_le (standing_of_leads hleads) hle

end ChangeSet

-- == runs

namespace TextProps

variable {s : TextProps} {spans : List Span} {changes : ChangeSet}
  {old text : Rope} {len : Nat}

/-- The boundaries of runs with the sides they are associated with. -/
def boundaries (spans : List Span) : List (Nat × Assoc) :=
  spans.flatMap fun r => [(r.start, .after), (r.stop, .before)]

/-- Starts are at the even indices. -/
theorem positions_zipIdx (spans : List Span) (k : Nat) (hk : k % 2 = 0) :
    ((positions ⟨spans⟩).zipIdx k).map (fun p =>
        (p.1, if p.2 % 2 = 0 then Assoc.after else .before))
      = boundaries spans := by
  induction spans generalizing k with
  | nil => rfl
  | cons r spans ih =>
      have hrest := ih (k + 1 + 1) (by omega)
      have hodd : (k + 1) % 2 ≠ 0 := by omega
      simp only [positions, boundaries] at hrest ⊢
      rw [List.flatMap_cons, List.flatMap_cons, ← hrest]
      simp only [List.cons_append, List.nil_append, List.zipIdx_cons,
        List.map_cons, if_pos hk, if_neg hodd]

/-- The boundaries of runs in order are in order. -/
theorem boundaries_sorted (ha : Apart spans) (hf : Filled spans) :
    (boundaries spans).Pairwise fun x y => x.1 ≤ y.1 := by
  induction spans with
  | nil => exact .nil
  | cons r spans ih =>
      have hr : r.start < r.stop := hf r List.mem_cons_self
      have hlater : ∀ y ∈ boundaries spans, r.stop ≤ y.1 := by
        intro y hy
        obtain ⟨r', hr', hy⟩ := List.mem_flatMap.mp hy
        have hle := (List.pairwise_cons.mp ha).1 r' hr'
        have hr'' := hf.tail r' hr'
        rcases List.mem_cons.mp hy with rfl | hy
        · exact hle
        · rw [List.mem_singleton.mp hy]
          exact hle.trans hr''.le
      show List.Pairwise _
        ((r.start, Assoc.after) :: (r.stop, Assoc.before) :: boundaries spans)
      refine List.pairwise_cons.mpr ⟨fun y hy => ?_,
        List.pairwise_cons.mpr ⟨hlater, ih ha.tail hf.tail⟩⟩
      rcases List.mem_cons.mp hy with rfl | hy
      · exact hr.le
      · exact hr.le.trans (hlater y hy)

/-- A run between the images of its boundaries. -/
def moved (U : Unicode) (changes : ChangeSet) (r : Span) : Span :=
  { r with
    start := changes.mapped U r.start .after
    stop := changes.mapped U r.stop .before }

theorem setPositions_boundaries (spans : List Span) :
    setPositions spans ((boundaries spans).map fun x =>
        changes.mapped U x.1 x.2) = spans.map (moved U changes) := by
  induction spans with
  | nil => rfl
  | cons r spans ih =>
      rw [boundaries, List.flatMap_cons, List.map_append]
      exact congrArg (moved U changes r :: ·) ih

/-- A change moves runs in order to runs that are apart. -/
theorem apart_moved (ha : Apart spans)
    (hin : ∀ r ∈ spans, r.start ≤ oldLen changes.changes) :
    Apart (spans.map (moved U changes)) := by
  refine List.pairwise_map.mpr (ha.imp_of_mem fun {a b} _ hb hab => ?_)
  exact ChangeSet.mapped_mono (hin b hb) hab

/-- A retained char is in the same runs before and after. -/
theorem covers_moved {r : Span} {i j : Nat}
    (hstart : r.start ≤ oldLen changes.changes)
    (hstop : r.stop ≤ oldLen changes.changes)
    (hk : kept changes.changes i = some j) :
    (moved U changes r).Covers j ↔ r.Covers i := by
  constructor
  · rintro ⟨h₁, h₂⟩
    have h₁ : changes.mapped U r.start .after ≤ j := h₁
    have h₂ : j < changes.mapped U r.stop .before := h₂
    constructor
    · by_contra hlt
      have := @ChangeSet.lt_mapped U _ _ _ _ .after hstart (not_le.mp hlt) hk
      omega
    · by_contra hge
      have := @ChangeSet.mapped_le U _ _ _ _ .before hstop (not_lt.mp hge) hk
      omega
  · rintro ⟨h₁, h₂⟩
    exact ⟨ChangeSet.mapped_le hstart h₁ hk, ChangeSet.lt_mapped hstop h₂ hk⟩

theorem valuesAt_moved {i j : Nat}
    (hin : ∀ r ∈ spans, r.start ≤ oldLen changes.changes ∧
      r.stop ≤ oldLen changes.changes)
    (hk : kept changes.changes i = some j) :
    valuesAt (spans.map (moved U changes)) j = valuesAt spans i := by
  unfold valuesAt
  rw [List.filter_map, List.map_map]
  have hfilter : (spans.filter fun r => (moved U changes r).Covers j)
      = spans.filter fun r => r.Covers i := by
    refine List.filter_congr fun r hr => ?_
    rw [decide_eq_decide]
    exact covers_moved (hin r hr).1 (hin r hr).2 hk
  exact congrArg (List.map Run.value) hfilter

/-- No run reaches past `len`. -/
def WithinText (s : TextProps) (len : Nat) : Prop :=
  ∀ r ∈ s.spans, r.stop ≤ len

instance (s : TextProps) (len : Nat) : Decidable (s.WithinText len) :=
  inferInstanceAs (Decidable (∀ r ∈ s.spans, r.stop ≤ len))

/-- Runs that hold only positions of the text are within it. -/
theorem within_of_valuesAt (h : Canonical {} s.spans)
    (hvalues : ∀ x, valuesAt s.spans x ≠ [] → x < len) :
    s.WithinText len := by
  intro r hr
  have hfilled := h.filled r hr
  have hlast : r.value ∈ valuesAt s.spans (r.stop - 1) :=
    mem_valuesAt.mpr ⟨r, hr, ⟨by omega, by omega⟩, rfl⟩
  have := hvalues _ (List.ne_nil_of_mem hlast)
  omega

/-- Runs within the text are not clamped. -/
theorem repair_eq (hin : ∀ r ∈ spans, r.start ≤ len ∧ r.stop ≤ len) :
    repair ⟨spans⟩ len = tidy spans := by
  refine congrArg tidy ?_
  show spans.map _ = spans
  calc spans.map (fun r => { r with
          start := min r.start len, stop := min r.stop len })
      = spans.map id := by
        refine List.map_congr_left fun r hr => ?_
        obtain ⟨h₁, h₂⟩ := hin r hr
        rw [min_eq_left h₁, min_eq_left h₂]
        rfl
    _ = spans := List.map_id spans

/-- Changes that leave the text alone retain every char where it is. -/
theorem kept_of_isEmpty (he : changes.isEmpty) {i j : Nat}
    (hk : kept changes.changes i = some j) : j = i := by
  unfold ChangeSet.isEmpty at he
  rw [Bool.or_eq_true, List.isEmpty_iff, beq_iff_eq] at he
  rcases he with he | he
  · rw [he] at hk
    cases hk
    rfl
  · rw [he, kept, kept] at hk
    split at hk
    · cases hk
      rfl
    · next hge =>
        cases hk
        exact Nat.sub_add_cancel (Nat.le_of_not_lt hge)

/-- Taken through a change of the text they are in, the runs of a
canonical store are canonical again, and a retained char carries at its
new index what it carried before. -/
theorem map_through_law (U : Unicode) {s : TextProps} {changes : ChangeSet}
    {old text : Rope} (hs : Canonical {} s.spans)
    (hin : s.WithinText old.length) (hc : changes.Carries old text) :
    ∃ s', s.mapThrough U changes text = .ok s' ∧ Canonical {} s'.spans ∧
      s'.WithinText text.length ∧
      ∀ i j, i < old.length → kept changes.changes i = some j →
        text[j]? = old[i]? ∧ s'.propsAt j = s.propsAt i := by
  have hsame : ∀ i j, i < old.length → kept changes.changes i = some j →
      text[j]? = old[i]? := by
    intro i j _ hk
    rw [← hc.run]
    exact getElem?_run_kept (hc.len ▸ hc.valid.oldLen_le) hk
  unfold mapThrough
  by_cases he : changes.isEmpty
  · rw [he, Bool.true_or, if_pos rfl]
    refine ⟨s, rfl, hs, ?_, fun i j hi hk => ⟨hsame i j hi hk, ?_⟩⟩
    · rw [hc.unchanged he] at hin
      exact hin
    · rw [kept_of_isEmpty he hk]
  by_cases hnil : s.spans.isEmpty
  · rw [hnil, Bool.or_true, if_pos rfl]
    have hnil := List.isEmpty_iff.mp hnil
    refine ⟨s, rfl, hs, ?_, fun i j hi hk => ⟨hsame i j hi hk, ?_⟩⟩
    · intro r hr
      rw [hnil] at hr
      cases hr
    · rw [propsAt_eq, propsAt_eq, hnil]
      rfl
  have hwf := hc.wellFormed he
  have hold : oldLen changes.changes = old.length := hwf.old.trans hc.len
  have hnew : newLen changes.changes = text.length :=
    hwf.new.trans hc.lenAfter
  have hends : ∀ r ∈ s.spans, r.start ≤ oldLen changes.changes ∧
      r.stop ≤ oldLen changes.changes := by
    intro r hr
    have hstop := hin r hr
    have hstart := hs.filled r hr
    rw [hold]
    exact ⟨hstart.le.trans hstop, hstop⟩
  have hpositions : ∀ x ∈ boundaries s.spans,
      x.1 ≤ oldLen changes.changes := by
    intro x hx
    obtain ⟨r, hr, hx⟩ := List.mem_flatMap.mp hx
    rcases List.mem_cons.mp hx with rfl | hx
    · exact (hends r hr).1
    · rw [List.mem_singleton.mp hx]
      exact (hends r hr).2
  have hmoved : ∀ r ∈ s.spans.map (moved U changes),
      r.start ≤ text.length ∧ r.stop ≤ text.length := by
    intro r hr
    obtain ⟨r', hr', rfl⟩ := List.mem_map.mp hr
    rw [← hnew]
    exact ⟨ChangeSet.mapped_le_newLen (hends r' hr').1,
      ChangeSet.mapped_le_newLen (hends r' hr').2⟩
  have hapart := @apart_moved U s.spans changes hs.apart
    fun r hr => (hends r hr).1
  obtain ⟨hcan, hvalues⟩ := tidy_spec hapart.scattered
  refine ⟨tidy (s.spans.map (moved U changes)), ?_, hcan, ?_,
    fun i j hi hk => ⟨hsame i j hi hk, ?_⟩⟩
  · rw [Bool.not_eq_true] at he hnil
    rw [he, hnil, Bool.or_false, if_neg Bool.false_ne_true,
      positions_zipIdx s.spans 0 rfl, ChangeSet.updatePositions_sorted
        (boundaries_sorted hs.apart hs.filled) hpositions, ok_bind,
      setPositions_boundaries, repair_eq hmoved]
    rfl
  · refine within_of_valuesAt hcan fun x hx => ?_
    rw [hvalues] at hx
    obtain ⟨p, hp⟩ := List.exists_mem_of_ne_nil _ hx
    obtain ⟨r, hr, hcov, -⟩ := mem_valuesAt.mp (List.mem_filter.mp hp).1
    exact hcov.2.trans_le (hmoved r hr).2
  · rw [propsAt_eq, hvalues, valuesAt_moved hends hk, valuesAt_eq hs]
    exact head?_filter_toList _ (carried_propsAt hs i)

/-- A bold word, of which an edit replaces the middle. -/
theorem map_through_law_replace :
    let s : TextProps := ⟨[⟨0, 4, { face := { bold := true } }⟩]⟩
    let changes : ChangeSet :=
      ⟨[.retain 1, .insert ['x', 'y', 'z'], .delete 2, .retain 2], 5, 6⟩
    let old : Rope := ['w', 'o', 'r', 'd', 's']
    let text : Rope := ['w', 'x', 'y', 'z', 'd', 's']
    ∃ s', s.mapThrough .ascii changes text = .ok s' ∧
      Canonical {} s'.spans ∧ s'.WithinText text.length ∧
      ∀ i j, i < old.length → kept changes.changes i = some j →
        text[j]? = old[i]? ∧ s'.propsAt j = s.propsAt i :=
  map_through_law .ascii
    ⟨by decide, by decide, by decide, by decide⟩ (by decide)
    ⟨.inl ⟨rfl, rfl, by decide⟩, rfl, rfl⟩

/-- A run that reaches past the end of the text cannot be taken through a
change. -/
theorem not_map_through_law_past_end :
    let s : TextProps := ⟨[⟨0, 2, { face := { bold := true } }⟩]⟩
    let changes : ChangeSet := ⟨[.retain 1, .insert ['b']], 1, 2⟩
    Canonical {} s.spans ∧ changes.Carries ['a'] ['a', 'b'] ∧
      s.mapThrough .ascii changes ['a', 'b'] = .error .outOfBounds :=
  ⟨⟨by decide, by decide, by decide, by decide⟩,
    ⟨.inl ⟨rfl, rfl, by decide⟩, rfl, rfl⟩, by decide⟩

end TextProps

end Zmax
