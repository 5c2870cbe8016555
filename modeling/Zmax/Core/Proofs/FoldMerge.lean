/-
Two folds become one; and the lines that closed folds hide.

A merged fold has the nested folds of both, those of the second pushed down.
Nested folds that touch are two siblings of those, replaced by one as the
folds themselves are (`replace_pair`).
-/
import Zmax.Core.Proofs.FoldRemove

namespace Zmax.FoldTree

variable {folds gap : List Fold} {f g m : Fold} {line : Int}

-- == merging

/-- `m` is the fold that `f` and `g` make. -/
structure Merged (f g m : Fold) : Prop where
  proper : m.Proper
  top : m.top = f.top
  len : m.len = f.len + g.len
  depth_nested (line : Int) : depth m.nested line =
    depth f.nested line + depth g.nested (line - f.len)

/-- Where one fold begins behind the other, the merged one is what both
are. -/
theorem Merged.depth_eq (h : Merged f g m) (hf : f.Proper)
    (hadj : f.stop = g.top) (line : Int) :
    depth [m] line = depth [f] line + depth [g] line := by
  have htop := h.top
  have hlen := h.len
  rw [Fold.stop] at hadj
  simp only [depth_cons, depth_nil, Nat.add_zero, Fold.stop_eq]
  by_cases hin : f.top ≤ line ∧ line < f.top + f.len
  · have hnone : depth g.nested (line - m.top - f.len) = 0 :=
      depth_above fun x _ => by omega
    rw [if_pos (by omega), if_pos hin, if_neg (by omega), h.depth_nested,
      hnone, htop]
  · rw [if_neg hin, Nat.zero_add]
    by_cases hin' : g.top ≤ line ∧ line < g.top + g.len
    · have hnone : depth f.nested (line - m.top) = 0 :=
        depth_below fun x hx => by
          have := hf.inside x hx
          omega
      rw [if_pos (by omega), if_pos hin', h.depth_nested, hnone,
        Nat.zero_add, show line - m.top - f.len = line - g.top by omega]
    · rw [if_neg (by omega), if_neg hin']

/-- The nested folds of both, those of the second pushed down. -/
def joined (f g : Fold) : List Fold :=
  f.nested ++ rebase (-f.len) g.nested

theorem joined_spec (hf : f.Proper) (hg : g.Proper) :
    WellFormed (joined f g) ∧ (∀ x ∈ joined f g, x.stop ≤ f.len + g.len) ∧
      ∀ line, depth (joined f g) line =
        depth f.nested line + depth g.nested (line - f.len) := by
  have hdelta : ∀ b ∈ g.nested, (-f.len : Int) ≤ b.top := fun b _ => by omega
  obtain ⟨hA, hsorted⟩ := wellFormed_iff.mp hf.nested
  obtain ⟨hB, hsorted'⟩ :=
    wellFormed_iff.mp (wellFormed_rebase hg.nested hdelta)
  refine ⟨wellFormed_iff.mpr ⟨List.forall_mem_append.mpr ⟨hA, hB⟩,
    List.pairwise_append.mpr ⟨hsorted, hsorted', fun a ha x hx => ?_⟩⟩,
    fun x hx => ?_, fun line => ?_⟩
  · obtain ⟨b, -, htop, -, -⟩ := mem_rebase hdelta hx
    have := hf.inside a ha
    omega
  · rcases List.mem_append.mp hx with hx | hx
    · exact Nat.le_add_right_of_le (hf.inside x hx)
    · obtain ⟨b, hb, -, hstop, -⟩ := mem_rebase hdelta hx
      have := hg.inside b hb
      omega
  · rw [joined, depth_append, depth_rebase hdelta, Int.sub_eq_add_neg]

/-- One fold in the place of the two it is made of. -/
theorem replace_pair {pre post : List Fold}
    (h : WellFormed (pre ++ f :: g :: post)) (hm : Merged f g m)
    (hadj : f.stop = g.top) :
    m.stop = g.stop ∧ WellFormed (pre ++ m :: post) ∧
      ∀ line, depth (pre ++ m :: post) line =
        depth (pre ++ f :: g :: post) line := by
  obtain ⟨hproper, hsorted⟩ := wellFormed_iff.mp h
  obtain ⟨hpre, htail, hcross⟩ := List.pairwise_append.mp hsorted
  obtain ⟨-, htail⟩ := List.pairwise_cons.mp htail
  obtain ⟨hpost, htail⟩ := List.pairwise_cons.mp htail
  have hstop : m.stop = g.stop := by
    rw [Fold.stop] at hadj ⊢
    rw [hm.top, hm.len, Fold.stop]
    omega
  simp only [List.forall_mem_append, List.forall_mem_cons] at hproper hcross
  refine ⟨hstop, wellFormed_iff.mpr ⟨?_, List.pairwise_append.mpr ⟨hpre,
    List.pairwise_cons.mpr ⟨hstop ▸ hpost, htail⟩, ?_⟩⟩, fun line => ?_⟩
  · simp only [List.forall_mem_append, List.forall_mem_cons]
    exact ⟨hproper.1, hm.proper, hproper.2.2.2⟩
  · simp only [List.forall_mem_cons, hm.top]
    exact fun x hx => ⟨(hcross x hx).1, (hcross x hx).2.2⟩
  · have heq := hm.depth_eq hproper.2.1 hadj line
    simp only [depth_append, depth_cons _ (_ :: _), depth_cons _ post,
      depth_cons _ [], depth_nil] at heq ⊢
    omega

/-- Nothing lies in front of a fold on the first line. -/
theorem take_eq_nil (h : WellFormed folds) {i : Nat}
    (hbefore : ∀ x ∈ folds.take i, x.stop ≤ (0 : Int)) :
    folds.take i = [] := by
  refine List.eq_nil_iff_forall_not_mem.mpr fun x hx => ?_
  have hpos := ((wellFormed_iff.mp h).1 x (List.mem_of_mem_take hx)).pos
  have hstop := hbefore x hx
  rw [Fold.stop_eq] at hstop
  omega

/-- Nothing lies behind a fold that no other one ends behind. -/
theorem drop_eq_nil (h : WellFormed folds) {i : Nat}
    (hget : folds[i]? = some f) (hin : ∀ x ∈ folds, x.stop ≤ f.stop) :
    folds.drop (i + 1) = [] := by
  obtain ⟨hproper, hsorted⟩ := wellFormed_iff.mp h
  refine List.eq_nil_iff_forall_not_mem.mpr fun x hx => ?_
  have hmem := List.mem_of_mem_drop hx
  have hpos := (hproper x hmem).pos
  have hstop := Nat.le_trans (hin x hmem) ((sorted_around hsorted hget).2 x hx)
  rw [Fold.stop] at hstop
  omega

theorem mergeFolds_spec {f g : Fold} (hf : f.Proper) (hg : g.Proper) :
    ∃ m, mergeFolds f g = .ok m ∧ Merged f g m := by
  obtain ⟨i3, found3, hfind3, h3⟩ := foldFind_spec (f.len - 1) hf.nested
  obtain ⟨i4, found4, hfind4, h4⟩ := foldFind_spec 0 hg.nested
  obtain ⟨hwell, hin, hdepth⟩ := joined_spec hf hg
  have hmap (folds : List Fold) : (folds.map fun b =>
      { b with top := b.top + f.len }) = rebase (-f.len) folds := by
    refine List.map_congr_left fun b _ => ?_
    rw [show ((b.top : Int) - -f.len).toNat = b.top + f.len by omega]
  have hpos : 0 < f.len + g.len := Nat.add_pos_left hf.pos _
  rw [mergeFolds, hfind3, ok_bind]
  dsimp only
  rw [hfind4, ok_bind]
  dsimp only
  by_cases hboth : found3 = true ∧ found4 = true
  · rw [if_pos hboth]
    obtain ⟨fp3, hget3, htop3, hstop3⟩ := h3.here hboth.1
    obtain ⟨child, hget4, htop4, hstop4⟩ := h4.here hboth.2
    have hmem3 := List.mem_of_getElem? hget3
    have hmem4 := List.mem_of_getElem? hget4
    have hend : fp3.stop = f.len := by
      have := hf.inside fp3 hmem3
      omega
    -- the two folds stand at the seam, the last and the first one
    have hdrop := drop_eq_nil hf.nested hget3 (hend ▸ hf.inside)
    have htake := take_eq_nil hg.nested h4.before
    obtain ⟨m3, hm3, hmerged⟩ := mergeFolds_spec
      ((wellFormed_iff.mp hf.nested).1 fp3 hmem3)
      ((wellFormed_iff.mp hg.nested).1 child hmem4)
    have hfront := eq_around hget3
    have hback := eq_around hget4
    rw [hdrop] at hfront
    rw [htake, List.nil_append] at hback
    have hjoined : joined f g = f.nested.take i3 ++ fp3 ::
        { child with top := f.len } ::
          rebase (-f.len) (g.nested.drop (i4 + 1)) := by
      have htop : ((child.top : Int) - -f.len).toNat = f.len := by omega
      calc joined f g = (f.nested.take i3 ++ [fp3]) ++
            rebase (-f.len) (child :: g.nested.drop (i4 + 1)) := by
            rw [joined, ← hfront, ← hback]
        _ = _ := by
            rw [rebase, List.map_cons, htop, List.append_assoc]
            rfl
    rw [hjoined] at hwell hin
    obtain ⟨hstop, hwell', hdepth'⟩ := replace_pair (m := m3) hwell
      ⟨hmerged.proper, hmerged.top, hmerged.len, hmerged.depth_nested⟩ hend
    rw [← hjoined] at hdepth'
    have hnested : (takeOver { f with nested := f.nested.set i3 m3 }
        { g with nested := g.nested.eraseIdx i4 }).nested =
        f.nested.take i3 ++ m3 ::
          rebase (-f.len) (g.nested.drop (i4 + 1)) := by
      rw [takeOver]
      dsimp only
      rw [hmap, set_around hget3, hdrop, List.append_nil,
        List.eraseIdx_eq_take_drop_succ, htake, List.nil_append,
        List.append_assoc, List.singleton_append]
    split
    · next fp3' child' heq3 heq4 =>
        obtain rfl := Option.some.inj (hget3.symm.trans heq3)
        obtain rfl := Option.some.inj (hget4.symm.trans heq4)
        rw [hm3, ok_bind]
        refine ⟨_, rfl, ⟨hpos, ?_, hnested ▸ hwell'⟩, rfl, rfl, fun line => ?_⟩
        · rw [hnested]
          simp only [List.forall_mem_append, List.forall_mem_cons] at hin ⊢
          exact ⟨hin.1, hstop ▸ hin.2.2.1, hin.2.2.2⟩
        · rw [hnested, hdepth', hdepth]
    · next hnone => exact (hnone fp3 child hget3 hget4).elim
  · rw [if_neg hboth]
    have hnested : (takeOver f g).nested = joined f g := by
      rw [joined, ← hmap]
      rfl
    exact ⟨_, rfl, ⟨hpos, hnested ▸ hin, hnested ▸ hwell⟩, rfl, rfl,
      hnested ▸ hdepth⟩
termination_by sizeOf f
decreasing_by exact sizeOf_nested_lt hget3

/-- One fold in the place of two. -/
theorem foldMerge_spec {i : Nat} (h : WellFormed gap)
    (hf : gap[i]? = some f) (hg : gap[i + 1]? = some g)
    (hadj : f.stop = g.top) :
    ∃ merged, foldMerge gap i (i + 1) =
        .ok (gap.take i ++ merged :: gap.drop (i + 2)) ∧
      Merged f g merged ∧ merged.stop = g.stop ∧
      WellFormed (gap.take i ++ merged :: gap.drop (i + 2)) ∧
      ∀ line, depth (gap.take i ++ merged :: gap.drop (i + 2)) line =
        depth gap line := by
  obtain ⟨hi, hget⟩ := List.getElem?_eq_some_iff.mp hg
  have hproper := (wellFormed_iff.mp h).1
  obtain ⟨merged, hmerge, hmerged⟩ :=
    mergeFolds_spec (hproper f (List.mem_of_getElem? hf))
      (hproper g (List.mem_of_getElem? hg))
  have hsplit := eq_around hf
  rw [List.drop_eq_getElem_cons hi, hget] at hsplit
  rw [hsplit] at h
  obtain ⟨hstop, hwell, hdepth⟩ := replace_pair h hmerged hadj
  refine ⟨merged, ?_, hmerged, hstop, hwell,
    fun line => (hdepth line).trans (by rw [← hsplit])⟩
  have hstay : (gap.eraseIdx (i + 1))[i]? = some f := by
    rwa [List.getElem?_eraseIdx_of_lt (Nat.lt_succ_self i)]
  have hlen : (gap.take (i + 1)).length = i + 1 :=
    List.length_take_of_le (by omega)
  rw [foldMerge, index_eq_ok.mpr hg, ok_bind]
  dsimp only
  rw [index_eq_ok.mpr hstay, ok_bind, hmerge, ok_bind, set_around hstay,
    List.eraseIdx_eq_take_drop_succ, List.drop_left' hlen,
    List.take_append_of_le_length (by omega), List.take_take,
    Nat.min_eq_left (Nat.le_succ i), List.append_assoc,
    List.singleton_append]
  rfl

-- == closed folds

variable {foldlevel level : Int} {foldminlines off : Nat} {useLevel : Bool}

theorem collectClosed_cons (f : Fold) (rest : List Fold) :
    collectClosed foldlevel foldminlines (f :: rest) level off useLevel =
      (if (checkClosed f useLevel level foldlevel foldminlines).1 then
          [(off + f.top, off + f.top + (f.len - 1))]
        else collectClosed foldlevel foldminlines f.nested (level + 1)
          (off + f.top)
          (checkClosed f useLevel level foldlevel foldminlines).2) ++
        collectClosed foldlevel foldminlines rest level off useLevel := by
  obtain ⟨top, len, nested, flags, small⟩ := f
  rw [collectClosed]

theorem hidden_cons (f : Fold) (rest : List Fold) :
    Hidden foldlevel foldminlines (f :: rest) level useLevel line ↔
      ((checkClosed f useLevel level foldlevel foldminlines).1 = true ∧
          f.top ≤ line ∧ line < f.stop) ∨
        Hidden foldlevel foldminlines f.nested (level + 1)
          (checkClosed f useLevel level foldlevel foldminlines).2
          (line - f.top) ∨
        Hidden foldlevel foldminlines rest level useLevel line := by
  obtain ⟨top, len, nested, flags, small⟩ := f
  rw [Hidden]
  simp only [Fold.stop, Int.natCast_add]

/-- A hidden line is in one of the folds. -/
theorem Hidden.inside (h : Hidden foldlevel foldminlines gap level useLevel line)
    (hgap : WellFormed gap) : ∃ f ∈ gap, f.top ≤ line ∧ line < f.stop := by
  induction gap using forest_induction generalizing level useLevel line with
  | nil =>
      rw [Hidden] at h
      exact h.elim
  | cons f rest ihnested ihrest =>
      obtain ⟨-, hinside, hnested, -, hrest⟩ := (wellFormed_cons f rest).mp hgap
      rcases (hidden_cons f rest).mp h with ⟨-, hline⟩ | h | h
      · exact ⟨f, List.mem_cons_self, hline⟩
      · obtain ⟨g, hg, htop, hstop⟩ := ihnested h hnested
        have := hinside g hg
        rw [Fold.stop_eq] at hstop
        exact ⟨f, List.mem_cons_self, by omega, by
          rw [Fold.stop_eq]; rw [Fold.stop] at this; omega⟩
      · obtain ⟨g, hg, hline⟩ := ihrest h hrest
        exact ⟨g, List.mem_cons_of_mem f hg, hline⟩

/-- Ranges sorted and apart, in the folds, that hide what these hide. -/
structure Closes (ranges : List (Nat × Nat)) (folds : List Fold) (off : Nat)
    (hides : Int → Prop) : Prop where
  sorted : ranges.Pairwise fun r s => r.2 < s.1
  inside : ∀ r ∈ ranges, r.1 ≤ r.2 ∧
    ∃ f ∈ folds, off + f.top ≤ r.1 ∧ r.2 < off + f.stop
  covers (line : Nat) : (∃ r ∈ ranges, r.1 ≤ line ∧ line ≤ r.2) ↔ hides line

theorem collectClosed_spec (h : WellFormed gap) :
    Closes (collectClosed foldlevel foldminlines gap level off useLevel) gap
      off fun line =>
        Hidden foldlevel foldminlines gap level useLevel (line - off) := by
  induction gap using forest_induction generalizing level off useLevel with
  | nil =>
      rw [collectClosed]
      exact ⟨.nil, fun _ hr => absurd hr List.not_mem_nil, fun line => by
        simp [Hidden]⟩
  | cons f rest ihnested ihrest =>
      obtain ⟨hpos, hinside, hnested, hsorted, hrest⟩ :=
        (wellFormed_cons f rest).mp h
      have hstop : f.stop = f.top + f.len := rfl
      have hbehind := @ihrest level off useLevel hrest
      rw [collectClosed_cons]
      generalize hcheck : checkClosed f useLevel level foldlevel foldminlines
        = check
      have hown : Closes
          (if check.1 then [(off + f.top, off + f.top + (f.len - 1))]
            else collectClosed foldlevel foldminlines f.nested (level + 1)
              (off + f.top) check.2) [f] off
          fun line => (check.1 = true ∧ f.top ≤ line - off ∧
              line - off < f.stop) ∨
            Hidden foldlevel foldminlines f.nested (level + 1) check.2
              (line - off - f.top) := by
        split
        · next hclosed =>
            refine ⟨List.pairwise_singleton _ _, fun r hr => ?_,
              fun line => ⟨?_, fun hline => ⟨_, List.mem_singleton_self _, ?_⟩⟩⟩
            · rw [List.mem_singleton.mp hr]
              exact ⟨Nat.le_add_right _ _, f, List.mem_singleton_self f,
                Nat.le_refl _, by dsimp only; omega⟩
            · rintro ⟨r, hr, hline⟩
              rw [List.mem_singleton.mp hr] at hline
              dsimp only at hline
              exact .inl ⟨hclosed, by omega, by omega⟩
            · dsimp only
              rcases hline with ⟨-, hline⟩ | hline
              · omega
              · obtain ⟨g, hg, hline⟩ := hline.inside hnested
                have := hinside g hg
                omega
        · next hopen =>
            have hdown := @ihnested (level + 1) (off + f.top) check.2 hnested
            refine ⟨hdown.sorted, fun r hr => ?_, fun line => ?_⟩
            · obtain ⟨hle, g, hg, hr⟩ := hdown.inside r hr
              have := hinside g hg
              exact ⟨hle, f, List.mem_singleton_self f, by omega, by omega⟩
            · rw [hdown.covers, Int.natCast_add, ← Int.sub_sub,
                or_iff_right fun hline => hopen hline.1]
      refine ⟨List.pairwise_append.mpr ⟨hown.sorted, hbehind.sorted,
        fun r hr s hs => ?_⟩, fun r hr => ?_, fun line => ?_⟩
      · obtain ⟨-, g, hg, -, hr⟩ := hown.inside r hr
        obtain ⟨-, g', hg', hs, -⟩ := hbehind.inside s hs
        have := hsorted g' hg'
        rw [List.mem_singleton.mp hg] at hr
        omega
      · rcases List.mem_append.mp hr with hr | hr
        · obtain ⟨hle, g, hg, hr⟩ := hown.inside r hr
          exact ⟨hle, g, List.mem_singleton.mp hg ▸ List.mem_cons_self, hr⟩
        · obtain ⟨hle, g, hg, hr⟩ := hbehind.inside r hr
          exact ⟨hle, g, List.mem_cons_of_mem f hg, hr⟩
      · rw [hidden_cons, hcheck, ← or_assoc, ← hown.covers, ← hbehind.covers]
        simp only [List.mem_append, or_and_right, exists_or]

-- == law

/-- Two folds that touch become one, and every line stays as deep as it is;
the closed ranges are sorted and apart, and what closed folds hide. -/
theorem fold_merge_law (gap : List Fold) (h : WellFormed gap) :
    (∀ i f g, gap[i]? = some f → gap[i + 1]? = some g → f.stop = g.top →
      ∃ merged after, foldMerge gap i (i + 1) = .ok after ∧
        after = gap.take i ++ merged :: gap.drop (i + 2) ∧
        merged.top = f.top ∧ merged.stop = g.stop ∧
        WellFormed merged.nested ∧ WellFormed after ∧
        ∀ line, depth after line = depth gap line) ∧
    ∀ foldlevel foldminlines,
      let ranges := closedRanges gap foldlevel foldminlines
      (ranges.Pairwise fun r s => r.2 < s.1) ∧ (∀ r ∈ ranges, r.1 ≤ r.2) ∧
        ∀ line : Nat, (∃ r ∈ ranges, r.1 ≤ line ∧ line ≤ r.2) ↔
          Hidden foldlevel foldminlines gap 0 false line := by
  refine ⟨fun i f g hf hg hadj => ?_, fun foldlevel foldminlines => ?_⟩
  · obtain ⟨merged, hmerge, hmerged, hstop, hwell, hdepth⟩ :=
      foldMerge_spec h hf hg hadj
    exact ⟨merged, _, hmerge, rfl, hmerged.top, hstop, hmerged.proper.nested,
      hwell, hdepth⟩
  · have hspec : Closes (closedRanges gap foldlevel foldminlines) gap 0
        fun line => Hidden foldlevel foldminlines gap 0 false (line - 0) :=
      collectClosed_spec h
    refine ⟨hspec.sorted, fun r hr => (hspec.inside r hr).1, fun line => ?_⟩
    rw [hspec.covers, Int.sub_zero]

/-- Nested folds at the seam, merged as well. -/
theorem fold_merge_law_seam :
    ∃ merged after, foldMerge
        [⟨1, 2, [⟨1, 1, [], .level, .none⟩], .level, .none⟩,
          ⟨3, 2, [⟨0, 1, [], .level, .none⟩], .level, .none⟩] 0 1 =
        .ok after ∧ after = [merged] ∧ merged.stop = 5 ∧
      WellFormed after ∧ depth after 3 = 2 := by
  have hwell : WellFormed
      [⟨1, 2, [⟨1, 1, [], .level, .none⟩], .level, .none⟩,
        ⟨3, 2, [⟨0, 1, [], .level, .none⟩], .level, .none⟩] := by
    simp [wellFormed_cons, Fold.stop]
  obtain ⟨merged, after, hmerge, heq, -, hstop, -, hafter, hdepth⟩ :=
    (fold_merge_law _ hwell).1 0 _ _ rfl rfl rfl
  refine ⟨merged, after, hmerge, heq, hstop, hafter, (hdepth 3).trans ?_⟩
  simp [depth_cons, Fold.stop]

end Zmax.FoldTree
