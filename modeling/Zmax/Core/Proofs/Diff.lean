/-
The transaction `compare_ropes` finds leads to the other text.

`Writes c t u` is what the builder keeps: so far its operations consume `t`
and write `u`. Along hunks of chars `t` and `u` grow by the items of both
lists up to the hunk (`charHunks_writes`); along hunks of lines they are the
lines before the builder's position, put together (`processHunk_writes`).
-/
import Zmax.Core.Diff
import Zmax.Core.Proofs.Revisions
import Zmax.Core.Proofs.Lines

namespace Zmax

open Script Hunks

-- == lines of a text

variable {unicodeLines : Bool} {doc : Rope}

@[simp] theorem length_ropeLines :
    (ropeLines unicodeLines doc).length = lenLines unicodeLines doc := by
  simp [ropeLines]

/-- The first lines are the text in front of the next one. -/
theorem flatten_take_ropeLines {k : Nat}
    (hk : k ≤ lenLines unicodeLines doc) :
    ((ropeLines unicodeLines doc).take k).flatten =
      doc.take (Lines.lineStart (lineBreaks unicodeLines) doc k) := by
  induction k with
  | zero => simp
  | succ k ih =>
      have hlt : k < (ropeLines unicodeLines doc).length := by
        rw [length_ropeLines]
        exact hk
      rw [List.take_succ_eq_append_getElem hlt, List.flatten_append,
        ih (Nat.le_of_succ_le hk), List.flatten_singleton]
      simp only [ropeLines, List.getElem_map, List.getElem_range]
      exact take_append_range (Lines.lineStart_mono (Nat.le_succ k))

theorem flatten_ropeLines : (ropeLines unicodeLines doc).flatten = doc := by
  have h := flatten_take_ropeLines
    (Nat.le_refl (lenLines unicodeLines doc))
  rw [show lenLines unicodeLines doc = Lines.lineCount _ doc from rfl,
    Lines.lineStart_lineCount, List.take_length] at h
  rwa [List.take_of_length_le (by simp [ropeLines, lenLines])] at h

theorem lenChars_eq (lines : List Rope) :
    lenChars lines = lines.flatten.length := by
  induction lines with
  | nil => rfl
  | cons line lines ih => simp [lenChars, ih]

-- == what is written

/-- The operations so far consume `t` and write `u`. -/
structure Writes (c : ChangeSet) (t u : Rope) : Prop where
  wellFormed : c.WellFormed
  len : t.length = c.len
  run : run c.changes t = u

variable {c : ChangeSet} {t u : Rope}

theorem writes_nothing : Writes .withCapacity [] [] :=
  ⟨ChangeSet.wellFormed_withCapacity, rfl, rfl⟩

theorem Writes.retain (h : Writes c t u) (kept : Rope) :
    Writes (c.retain kept.length) (t ++ kept) (u ++ kept) where
  wellFormed := h.wellFormed.retain _
  len := by simp [h.len]
  run := by rw [ChangeSet.run_retain_append h.wellFormed h.len rfl, h.run]

theorem Writes.delete (h : Writes c t u) (gone : Rope) :
    Writes (c.delete gone.length) (t ++ gone) u where
  wellFormed := h.wellFormed.delete _
  len := by simp [h.len]
  run := by rw [ChangeSet.run_delete_append h.wellFormed h.len rfl, h.run]

theorem Writes.insert (h : Writes c t u) (s : Tendril) :
    Writes (c.insert s) t (u ++ s) where
  wellFormed := h.wellFormed.insert s
  len := by simp [h.len]
  run := by rw [ChangeSet.run_insert_append h.wellFormed h.len, h.run]

theorem Writes.carries (h : Writes c t u) : c.Carries t u :=
  ⟨.inl h.wellFormed, h.len.symm, h.run⟩

-- == ranges

theorem slice_fits {α : Type _} {xs : List α} {s : Extent} {pos : Nat}
    (h : s.Fits pos xs) : slice xs s.start s.stop = .ok (s.of xs) :=
  slice_of_le h.le h.le_length

theorem length_of_fits {α : Type _} {xs : List α} {s : Extent} {pos : Nat}
    (h : s.Fits pos xs) : (s.of xs).length = s.len := by
  have := h.le_length
  simp only [Extent.of, Extent.len, List.length_take, List.length_drop]
  omega

-- == hunks of chars

/-- Behind `t` and `u`, hunks of chars consume the rest of the old chars and
write that of the new ones. -/
theorem charHunks_writes {old new : Rope} {hunks : List Hunk} {p q : Nat}
    (hbetween : Between old new hunks p q) (hp : p ≤ old.length)
    (h : Writes c (t ++ old.take p) (u ++ new.take q)) :
    ∃ res, charHunks old new hunks p c = .ok res ∧
      Writes res (t ++ old) (u ++ new) := by
  induction hunks generalizing p q c with
  | nil =>
      refine ⟨_, by rw [charHunks, checkedSub_of_le hp]; rfl, ?_⟩
      have hrest := h.retain (old.drop p)
      rw [List.append_assoc, List.take_append_drop,
        show old.drop p = new.drop q from hbetween, List.append_assoc,
        List.take_append_drop] at hrest
      rwa [← List.length_drop, show old.drop p = new.drop q from hbetween]
  | cons hunk hunks ih =>
      obtain ⟨hold, hnew, hsame, hrest⟩ := hbetween
      rw [charHunks, checkedSub_of_le hold.pos_le, slice_fits hnew]
      refine ih hrest hold.le_length ?_
      have hgap : (Extent.mk p hunk.before.start).Fits p old :=
        ⟨Nat.le_refl _, hold.pos_le, Nat.le_trans hold.le hold.le_length⟩
      have hkeep := h.retain ((Extent.mk p hunk.before.start).of old)
      rw [length_of_fits hgap, List.append_assoc, hgap.take_append, hsame,
        List.append_assoc, take_append_range hnew.pos_le] at hkeep
      have hdel := hkeep.delete (hunk.before.of old)
      rw [length_of_fits hold, List.append_assoc, hold.take_append] at hdel
      have hins := hdel.insert (hunk.after.of new)
      rw [List.append_assoc, hnew.take_append] at hins
      exact hins

-- == hunks of lines

/-- Lines put together are the text they come from. -/
theorem flatten_of_ropeLines {lines : Extent} {q : Nat}
    (h : lines.Fits q (ropeLines unicodeLines doc)) :
    (lines.of (ropeLines unicodeLines doc)).flatten =
      (Extent.mk (Lines.lineStart (lineBreaks unicodeLines) doc lines.start)
        (Lines.lineStart (lineBreaks unicodeLines) doc lines.stop)).of doc := by
  have hstop := h.le_length
  rw [length_ropeLines] at hstop
  have hflat := congrArg List.flatten h.take_append
  rw [List.flatten_append, flatten_take_ropeLines (h.le.trans hstop),
    flatten_take_ropeLines hstop,
    ← take_append_range (Lines.lineStart_mono h.le)] at hflat
  exact List.append_cancel_left hflat

/-- However a run of lines is put together, it is the lines. -/
theorem fragment_eq {lines : Extent} {q : Nat}
    (h : lines.Fits q (ropeLines unicodeLines doc)) :
    ChangeSetBuilder.fragment unicodeLines (ropeLines unicodeLines doc) doc
      lines = .ok (lines.of (ropeLines unicodeLines doc)).flatten := by
  have hstop := h.le_length
  rw [length_ropeLines] at hstop
  have hmono := Lines.lineStart_mono (r := lineBreaks unicodeLines)
    (t := doc) h.le
  have hfirst := lineToChar_ok (h.le.trans hstop)
  have hlast := lineToChar_ok hstop
  have hle := Lines.lineStart_le (r := lineBreaks unicodeLines) doc lines.stop
  unfold ChangeSetBuilder.fragment
  by_cases hlong : lines.len > 500
  · rw [if_pos hlong, ChangeSetBuilder.longFragment, hfirst, hlast, ok_bind,
      ok_bind, ok_bind, flatten_of_ropeLines h, length_ropeLines]
    by_cases hend : lenLines unicodeLines doc = lines.stop
    · have hcount : Lines.lineStart (lineBreaks unicodeLines) doc lines.stop =
          doc.length := by
        rw [← hend]
        exact Lines.lineStart_lineCount doc
      rw [if_pos hend, hcount]
      by_cases hzero : lines.start = 0
      · rw [if_pos hzero, hzero]
        simp [Extent.of, Extent.len]
      · rw [if_neg hzero]
        exact slice_of_le (Lines.lineStart_le doc _) (Nat.le_refl _)
    · rw [if_neg hend]
      by_cases hzero : lines.start = 0
      · rw [if_pos hzero, hzero, Lines.lineStart_zero]
        exact slice_of_le (Nat.zero_le _) hle
      · rw [if_neg hzero]
        exact slice_of_le hmono hle
  · rw [if_neg hlong, slice_fits h]
    rfl

/-- One hunk of lines is written, and what is before it. -/
theorem processHunk_writes {imara : ImaraDiff} (hchars : imara.chars.Sound)
    {before : Rope} {builder : ChangeSetBuilder} {hunk : Hunk} {q : Nat}
    (hold : hunk.before.Fits builder.pos (ropeLines unicodeLines before))
    (hnew : hunk.after.Fits q (ropeLines unicodeLines doc))
    (hsame : (Extent.mk builder.pos hunk.before.start).of
        (ropeLines unicodeLines before) =
      (Extent.mk q hunk.after.start).of (ropeLines unicodeLines doc))
    (h : Writes builder.res
      ((ropeLines unicodeLines before).take builder.pos).flatten
      ((ropeLines unicodeLines doc).take q).flatten) :
    ∃ res, builder.processHunk unicodeLines imara
        (ropeLines unicodeLines before) (ropeLines unicodeLines doc) doc hunk =
          .ok ⟨res, hunk.before.stop⟩ ∧
      Writes res
        ((ropeLines unicodeLines before).take hunk.before.stop).flatten
        ((ropeLines unicodeLines doc).take hunk.after.stop).flatten := by
  generalize hb : ropeLines unicodeLines before = b at *
  have hgap : (Extent.mk builder.pos hunk.before.start).Fits builder.pos b :=
    ⟨Nat.le_refl _, hold.pos_le, Nat.le_trans hold.le hold.le_length⟩
  -- what is kept before the hunk
  have hkeep := h.retain ((Extent.mk builder.pos hunk.before.start).of b).flatten
  rw [← List.flatten_append, hgap.take_append, hsame, ← List.flatten_append,
    take_append_range hnew.pos_le, ← hsame, ← lenChars_eq] at hkeep
  rw [ChangeSetBuilder.processHunk, slice_fits hgap, ok_bind,
    checkedSub_of_le hold.le, ok_bind, checkedSub_of_le hnew.le, ok_bind,
    slice_fits hold, ok_bind]
  by_cases hcoarse : isCoarse hunk.before.len hunk.after.len
  · have hdel := hkeep.delete (hunk.before.of b).flatten
    rw [← List.flatten_append, hold.take_append, ← lenChars_eq] at hdel
    have hins := hdel.insert (hunk.after.of
      (ropeLines unicodeLines doc)).flatten
    rw [← List.flatten_append, hnew.take_append] at hins
    refine ⟨_, ?_, hins⟩
    rw [Extent.len, Extent.len] at hcoarse
    rw [if_pos hcoarse, fragment_eq hnew]
    rfl
  · obtain ⟨res, hres, hwrites⟩ := charHunks_writes
      (hchars (hunk.before.of b).flatten (hunk.after.of
        (ropeLines unicodeLines doc)).flatten) (Nat.zero_le _)
      (by simpa using hkeep)
    refine ⟨res, ?_, ?_⟩
    · rw [Extent.len, Extent.len] at hcoarse
      rw [if_neg hcoarse, slice_fits hnew, ok_bind]
      dsimp only
      rw [hres]
      rfl
    · rwa [← List.flatten_append, hold.take_append, ← List.flatten_append,
        hnew.take_append] at hwrites

/-- All hunks of lines, and what is after them. -/
theorem hunks_writes {imara : ImaraDiff} (hchars : imara.chars.Sound)
    {before : Rope} {hunks : List Hunk} {builder : ChangeSetBuilder} {q : Nat}
    (hbetween : Between (ropeLines unicodeLines before)
      (ropeLines unicodeLines doc) hunks builder.pos q)
    (hpos : builder.pos ≤ (ropeLines unicodeLines before).length)
    (h : Writes builder.res
      ((ropeLines unicodeLines before).take builder.pos).flatten
      ((ropeLines unicodeLines doc).take q).flatten) :
    ∃ last res, hunks.foldlM (ChangeSetBuilder.processHunk unicodeLines imara
          (ropeLines unicodeLines before) (ropeLines unicodeLines doc) doc)
          builder = .ok last ∧
      last.finish (ropeLines unicodeLines before) = .ok res ∧
      Writes res before doc := by
  induction hunks generalizing builder q with
  | nil =>
      have hrest : (ropeLines unicodeLines before).drop builder.pos =
          (ropeLines unicodeLines doc).drop q := hbetween
      have hkeep := h.retain
        ((ropeLines unicodeLines before).drop builder.pos).flatten
      rw [← List.flatten_append, List.take_append_drop, flatten_ropeLines,
        hrest, ← List.flatten_append, List.take_append_drop,
        flatten_ropeLines, ← hrest, ← lenChars_eq] at hkeep
      refine ⟨builder, _, rfl, ?_, hkeep⟩
      rw [ChangeSetBuilder.finish, slice_of_le hpos (Nat.le_refl _),
        List.take_of_length_le (by simp)]
      rfl
  | cons hunk hunks ih =>
      obtain ⟨hold, hnew, hsame, hlater⟩ := hbetween
      obtain ⟨res, hres, hwrites⟩ := processHunk_writes hchars hold hnew hsame h
      rw [List.foldlM_cons, hres]
      exact ih hlater hold.le_length hwrites

theorem compareRopes_carries (unicodeLines : Bool) {imara : ImaraDiff}
    (hlines : imara.lines.Sound) (hchars : imara.chars.Sound) (a b : Rope) :
    ∃ t, compareRopes unicodeLines imara a b = .ok t ∧ t.Carries a b := by
  obtain ⟨last, res, hfold, hfinish, hwrites⟩ :=
    @hunks_writes unicodeLines b imara hchars a _ ⟨.withCapacity, 0⟩ 0
      (hlines _ _) (Nat.zero_le _) writes_nothing
  refine ⟨.ofChanges res, ?_, hwrites.carries⟩
  rw [compareRopes, hfold, ok_bind, hfinish]
  rfl

/-- The transaction found by comparing two texts makes the second of the
first, whatever sound differences `imara_diff` finds. -/
theorem compare_ropes (unicodeLines : Bool) (imara : ImaraDiff)
    (hlines : imara.lines.Sound) (hchars : imara.chars.Sound) (a b : Rope) :
    ∃ t, compareRopes unicodeLines imara a b = .ok t ∧
      t.apply a = .ok (true, b) := by
  obtain ⟨t, ht, hcarries⟩ := compareRopes_carries unicodeLines hlines
    hchars a b
  exact ⟨t, ht, hcarries.turns⟩

/-- A last line loses its newline, and its word. -/
theorem compare_ropes_newline :
    ∃ t, compareRopes false ⟨coarse, coarse⟩ ['a', '\n'] ['b'] = .ok t ∧
      t.apply ['a', '\n'] = .ok (true, ['b']) :=
  compare_ropes false ⟨coarse, coarse⟩ coarse_sound coarse_sound _ _

end Zmax
