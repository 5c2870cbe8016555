/-
The lines of a text in the merge viewer: of one that is written line by
line, and of any other.
-/
import Zmax.Core.Proofs.Unified
import Zmax.Term.Merge

namespace Zmax.DiffView

open Text

theorem emit_append (xs ys : List Line) :
    emit (xs ++ ys) = emit xs ++ emit ys := List.flatMap_append

theorem stripSuffix_concat (c : Char) (l : Line) :
    stripSuffix c (l ++ [c]) = l := by
  unfold stripSuffix
  rw [if_pos List.getLast?_concat, List.dropLast_concat]

theorem stripSuffix_eq_self {c : Char} {l : Line} :
    stripSuffix c l = l ↔ l.getLast? ≠ some c := by
  unfold stripSuffix
  by_cases h : l.getLast? = some c
  · rw [if_pos h]
    refine ⟨fun heq => ?_, fun hne => absurd h hne⟩
    have hlen := congrArg List.length heq
    have hne : l ≠ [] := fun hnil => by
      rw [hnil] at h
      cases h
    have hpos := List.length_pos_iff.mpr hne
    rw [List.length_dropLast] at hlen
    omega
  · rw [if_neg h]
    exact ⟨fun _ => h, fun _ => rfl⟩

/-- The pieces between newlines give the lines, with their newlines. -/
theorem sourceLines_emit_append {ls : List Line} {last : Line}
    (h : ∀ l ∈ ls, '\n' ∉ l) (hlast : '\n' ∉ last) :
    sourceLines (emit ls ++ last)
      = ls.map (· ++ ['\n']) ++ if last = [] then [] else [last] := by
  have hpieces : (emit ls ++ last).splitOn '\n' = ls ++ [last] :=
    splitOn_unlines_append h hlast
  unfold sourceLines
  rw [hpieces]
  by_cases hnil : last = []
  · simp [hnil]
  · simp [hnil]

theorem splitLines_emit {ls : List Line} (h : ∀ l ∈ ls, '\n' ∉ l) :
    splitLines (emit ls) = ls.map (stripSuffix '\r') := by
  have hlines := sourceLines_emit_append h (List.not_mem_nil (a := '\n'))
  rw [List.append_nil, if_pos rfl, List.append_nil] at hlines
  unfold splitLines
  have hstrip : (ls.map (· ++ ['\n'])).map (stripSuffix '\n') = ls := by
    rw [List.map_map]
    refine (List.map_congr_left fun l _ => ?_).trans (List.map_id _)
    exact stripSuffix_concat '\n' l
  rw [hlines, hstrip]

theorem mem_of_mem_stripSuffix {c d : Char} {l : Line}
    (h : d ∈ stripSuffix c l) : d ∈ l := by
  unfold stripSuffix at h
  by_cases hlast : l.getLast? = some c
  · rw [if_pos hlast] at h
    exact List.dropLast_subset _ h
  · rwa [if_neg hlast] at h

/-- No line of a text has a newline in it. -/
theorem splitLines_no_newline (text : Rope) :
    ∀ l ∈ splitLines text, '\n' ∉ l := by
  obtain ⟨ls, last, rfl, hls, hlast⟩ := exists_unlines text
  have hlines : sourceLines (Unified.unlines ls ++ last)
      = ls.map (· ++ ['\n']) ++ if last = [] then [] else [last] :=
    sourceLines_emit_append hls hlast
  intro l hl hmem
  unfold splitLines at hl
  rw [hlines, List.map_map, List.map_append, List.map_map] at hl
  rcases List.mem_append.mp hl with hl | hl
  · obtain ⟨x, hx, rfl⟩ := List.mem_map.mp hl
    have hx' := mem_of_mem_stripSuffix hmem
    rw [stripSuffix_concat] at hx'
    exact hls x hx hx'
  · obtain ⟨x, hx, rfl⟩ := List.mem_map.mp hl
    have hx' := mem_of_mem_stripSuffix (mem_of_mem_stripSuffix hmem)
    by_cases hnil : last = []
    · rw [if_pos hnil] at hx
      cases hx
    · rw [if_neg hnil] at hx
      rw [List.mem_singleton.mp hx] at hx'
      exact hlast hx'

end Zmax.DiffView
