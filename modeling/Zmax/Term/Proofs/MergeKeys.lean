/-
How many lines the text of the keys has that lines are compared by.

A key has no newline (`key_no_newline`), so the text has one line for each
line of the original, or one less where the last key is empty
(`length_keys_le`).
-/
import Zmax.Term.Proofs.MergeAlign

namespace Zmax.DiffView

open Text

theorem mem_intercalate {sep : List Char} {words : List (List Char)}
    {c : Char} (h : c ∈ sep.intercalate words) :
    c ∈ sep ∨ ∃ w ∈ words, c ∈ w := by
  induction words with
  | nil => cases h
  | cons w words ih =>
      by_cases hnil : words = []
      · rw [hnil, List.intercalate_singleton] at h
        exact .inr ⟨w, List.mem_cons_self, h⟩
      · rw [List.intercalate_cons_of_ne_nil hnil, List.append_assoc] at h
        rcases List.mem_append.mp h with h | h
        · exact .inr ⟨w, List.mem_cons_self, h⟩
        · rcases List.mem_append.mp h with h | h
          · exact .inl h
          · rcases ih h with h | ⟨v, hv, h⟩
            · exact .inl h
            · exact .inr ⟨v, List.mem_cons_of_mem _ hv, h⟩

/-- What is split off consists of items of the list. -/
theorem mem_of_mem_splitOnP {α : Type} {p : α → Bool} {xs piece : List α}
    (h : piece ∈ xs.splitOnP p) {x : α} (hx : x ∈ piece) : x ∈ xs := by
  induction xs generalizing piece with
  | nil =>
      rw [List.splitOnP_nil, List.mem_singleton] at h
      exact h ▸ hx
  | cons y xs ih =>
      rw [List.splitOnP_cons_eq_if_modifyHead] at h
      by_cases hy : p y
      · rw [if_pos hy] at h
        rcases List.mem_cons.mp h with rfl | h
        · cases hx
        · exact List.mem_cons_of_mem _ (ih h hx)
      · rw [if_neg hy] at h
        cases hpieces : xs.splitOnP p with
        | nil => exact absurd hpieces (List.splitOnP_ne_nil p xs)
        | cons front pieces =>
            rw [hpieces, List.modifyHead_cons] at h
            rcases List.mem_cons.mp h with rfl | h
            · rcases List.mem_cons.mp hx with rfl | hx
              · exact List.mem_cons_self
              · exact List.mem_cons_of_mem _
                  (ih (hpieces ▸ List.mem_cons_self) hx)
            · exact List.mem_cons_of_mem _
                (ih (hpieces ▸ List.mem_cons_of_mem _ h) hx)

/-- Lines with newlines between them, and one behind the last. -/
theorem intercalate_concat (ls : List Line) (last : Line) :
    ['\n'].intercalate (ls ++ [last]) = emit ls ++ last := by
  induction ls with
  | nil => exact List.intercalate_singleton
  | cons l ls ih =>
      rw [List.cons_append, List.intercalate_cons_of_ne_nil (by simp), ih]
      simp [emit]

theorem length_sourceLines_emit {ls : List Line} {last : Line}
    (h : ∀ l ∈ ls, '\n' ∉ l) (hlast : '\n' ∉ last) :
    (sourceLines (emit ls ++ last)).length
      = ls.length + if last = [] then 0 else 1 := by
  rw [sourceLines_emit_append h hlast, List.length_append, List.length_map]
  by_cases hnil : last = []
  · rw [if_pos hnil, if_pos hnil]
    rfl
  · rw [if_neg hnil, if_neg hnil]
    rfl

theorem endsWith_newline (text : List Char) :
    endsWith text ['\n'] ↔ text.getLast? = some '\n' := by
  unfold endsWith
  rw [List.isSuffixOf_iff_suffix]
  constructor
  · rintro ⟨front, rfl⟩
    exact List.getLast?_concat
  · intro h
    obtain ⟨front, rfl⟩ := List.getLast?_eq_some_iff.mp h
    exact List.suffix_append _ _

theorem getLast?_emit_append {ls : List Line} {last : Line}
    (hlast : '\n' ∉ last) :
    (emit ls ++ last).getLast? = some '\n' ↔ ls ≠ [] ∧ last = [] := by
  rcases List.eq_nil_or_concat last with rfl | ⟨front, c, rfl⟩
  · rw [List.append_nil]
    constructor
    · rintro h
      refine ⟨fun hnil => ?_, rfl⟩
      rw [hnil] at h
      cases h
    · exact fun h => unlines_getLast? h.1
  · rw [List.concat_eq_append, ← List.append_assoc, List.getLast?_concat]
    constructor
    · intro h
      cases h
      exact absurd (by simp) hlast
    · intro h
      simp at h

-- == keys

variable {s : Settings}

theorem key_no_newline (hlower : ∀ l, '\n' ∉ l → '\n' ∉ s.toLowercase l)
    {line : Line} (h : '\n' ∉ line) (flags : List Line) :
    '\n' ∉ s.diffoptLineKey line flags := by
  have hkey : '\n' ∉ if flags.contains IWHITEALL then
        line.filter (!isWhitespace ·)
      else if flags.contains IWHITE then
        [' '].intercalate (splitWhitespace line)
      else if flags.contains IWHITEEOL then trimEnd line
      else line := by
    split
    · exact fun hmem => h (List.mem_filter.mp hmem).1
    · split
      · intro hmem
        rcases mem_intercalate hmem with hmem | ⟨w, hw, hmem⟩
        · exact absurd hmem (by decide)
        · exact h (mem_of_mem_splitOnP (List.mem_filter.mp hw).1 hmem)
      · split
        · exact fun hmem => h ((List.rdropWhile_prefix _ _).mem hmem)
        · exact h
  unfold Settings.diffoptLineKey
  dsimp only
  split
  · exact hlower _ hkey
  · exact hkey

theorem length_keys_le
    (hlower : ∀ l, '\n' ∉ l → '\n' ∉ s.toLowercase l) (text : Rope) :
    (sourceLines (s.diffoptNormalize text)).length
      ≤ (splitLines text).length := by
  rw [length_splitLines]
  unfold Settings.diffoptNormalize
  cases s.diffopt with
  | none => exact Nat.le_refl _
  | some opt =>
      dsimp only
      generalize (opt.splitOn ',').map trim = flags
      split
      · obtain ⟨ls, last, htext, hls, hlast⟩ := exists_unlines text
        have hemit : text = emit ls ++ last := htext
        have hlen := length_sourceLines_emit hls hlast
        have hlines : Text.lines text
            = ls.map stripCr ++ if last = [] then [] else [last] := by
          rw [htext]
          exact lines_unlines_append hls hlast
        have hkeys : ∀ k ∈ (ls.map stripCr).map (s.diffoptLineKey · flags),
            '\n' ∉ k := by
          rw [List.map_map]
          refine List.forall_mem_map.mpr fun l hl => ?_
          refine key_no_newline hlower (fun hmem => hls l hl ?_) flags
          exact mem_of_mem_stripSuffix hmem
        have hends : endsWith text ['\n'] ↔ ls ≠ [] ∧ last = [] := by
          rw [endsWith_newline, hemit]
          exact getLast?_emit_append hlast
        rw [hlines, hemit, hlen, ← hemit, List.map_append]
        have hcount : ((ls.map stripCr).map (s.diffoptLineKey · flags)).length
            = ls.length := by
          rw [List.length_map, List.length_map]
        generalize (ls.map stripCr).map (s.diffoptLineKey · flags) = keys at *
        by_cases hnil : last = []
        · rw [if_pos hnil, if_pos hnil, List.map_nil, List.append_nil,
            Nat.add_zero, ← hcount]
          rcases List.eq_nil_or_concat keys with rfl | ⟨front, k, rfl⟩
          · have hls : ls = [] := List.length_eq_zero_iff.mp hcount.symm
            rw [if_neg fun h => (hends.mp h).1 hls]
            exact Nat.le_refl _
          · have hls : ls ≠ [] := fun hls => by
              rw [hls] at hcount
              simp at hcount
            rw [List.concat_eq_append] at hkeys ⊢
            rw [if_pos (hends.mpr ⟨hls, hnil⟩), intercalate_concat]
            have hfront : emit front ++ k ++ ['\n'] = emit (front ++ [k]) := by
              simp [emit]
            have hsource := length_sourceLines_emit hkeys
              (List.not_mem_nil (a := '\n'))
            rw [List.append_nil, ← hfront] at hsource
            exact hsource.le
        · rw [if_neg hnil, if_neg hnil, if_neg fun h => hnil (hends.mp h).2,
            List.map_singleton, List.append_nil, intercalate_concat,
            length_sourceLines_emit hkeys (key_no_newline hlower hlast flags),
            hcount]
          split <;> omega
      · exact Nat.le_refl _

end Zmax.DiffView
