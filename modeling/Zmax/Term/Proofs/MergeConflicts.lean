/-
Conflict markers are read as they were written, but for lines that start
like them.

A section ends at the first line that starts with a marker, so it is read
in its length only where none of its lines does (`upTo_lines`,
`upTo_length`). By induction on the segments the parser gives them back
where this holds of all of them (`parse_rendered`), and where it does not
some segment has not the length it had (`clean_of_sizes`).
-/
import Zmax.Term.Proofs.MergeText

namespace Zmax.DiffView

open Text

-- == statement vocabulary

/-- The lines a resolution chooses, unless it leaves the conflict. -/
def chosen (ours theirs : List Line) : Resolution → Option (List Line)
  | .left => some ours
  | .right => some theirs
  | .both => some (ours ++ theirs)
  | .none => none

/-- The segments with each resolved conflict replaced by its chosen
lines. -/
def settle : List Segment → List Block → List Segment
  | [], _ => []
  | .context lines :: segments, blocks =>
      .context lines :: settle segments blocks
  | .conflict ours base theirs :: segments, blocks =>
      (match chosen ours theirs
          ((blocks.head?.map Block.resolution).getD .none) with
        | some lines => .context lines
        | none => .conflict ours base theirs)
        :: settle segments blocks.tail

/-- Adjacent contexts joined, behind some lines of context. -/
def joinFrom (context : List Line) : List Segment → List Segment
  | [] => flush context
  | .context lines :: segments => joinFrom (context ++ lines) segments
  | .conflict ours base theirs :: segments =>
      flush context ++ .conflict ours base theirs :: joinFrom [] segments

def join (segments : List Segment) : List Segment := joinFrom [] segments

attribute [grind =] settle joinFrom

namespace Segment

def lines : Segment → List Line
  | .context lines => lines
  | .conflict ours base theirs => ours ++ base ++ theirs

def isConflict : Segment → Bool
  | .context _ => false
  | .conflict .. => true

/-- No line starts with a marker that ends what it is in. -/
def Unmarked : Segment → Prop
  | .context lines => ∀ l ∈ lines, startsWithAny [OURS] l = false
  | .conflict ours base theirs =>
      (∀ l ∈ ours, startsWithAny [BASE, SPLIT, THEIRS] l = false)
        ∧ (∀ l ∈ base, startsWithAny [SPLIT, THEIRS] l = false)
        ∧ ∀ l ∈ theirs, startsWithAny [THEIRS] l = false

end Segment

/-- No line starts with a marker that ends what it is in, and none ends in
a carriage return. -/
def Clean (segments : List Segment) : Prop :=
  ∀ s ∈ segments, s.Unmarked ∧ ∀ l ∈ s.lines, l.getLast? ≠ some '\r'

-- == sections

variable {markers : List Line} {xs rest : List Line} {m : Line}

/-- A section that has no marker in it ends at the next one. -/
theorem upTo_lines (h : ∀ l ∈ xs, startsWithAny markers l = false)
    (hm : startsWithAny markers m = true) :
    upTo markers (xs ++ m :: rest) = (xs, m :: rest) := by
  have hxs : ∀ l ∈ xs, (!startsWithAny markers l) = true := fun l hl => by
    rw [h l hl]
    rfl
  unfold upTo
  rw [List.takeWhile_append_of_pos hxs, List.dropWhile_append_of_pos hxs]
  simp [hm]

/-- Where a section is read in its length, it has no marker in it. -/
theorem upTo_length
    (h : (upTo markers (xs ++ m :: rest)).1.length = xs.length)
    (l : Line) (hl : l ∈ xs) : startsWithAny markers l = false := by
  unfold upTo at h
  induction xs with
  | nil => cases hl
  | cons x xs ih =>
      cases hx : startsWithAny markers x with
      | true =>
          rw [List.cons_append, List.takeWhile_cons_of_neg (by simp [hx])] at h
          cases h
      | false =>
          rw [List.cons_append, List.takeWhile_cons_of_pos (by simp [hx])] at h
          rcases List.mem_cons.mp hl with rfl | hl
          · exact hx
          · exact ih (Nat.succ.inj h) hl

-- == conflicts

/-- The base section, which is left out where there is none. -/
def baseLines (base : List Line) : List Line :=
  if base.isEmpty then [] else BASE :: base

/-- What follows the first marker of a conflict. -/
def conflictLines (ours base theirs rest : List Line) : List Line :=
  ours ++ (baseLines base ++ SPLIT :: (theirs ++ THEIRS :: rest))

section

variable {ours base theirs : List Line}

/-- The sections of a conflict behind its own side. -/
theorem behind_base
    (hbase : ∀ l ∈ base, startsWithAny [SPLIT, THEIRS] l = false) :
    behind BASE [SPLIT, THEIRS] (baseLines base ++ SPLIT :: rest)
      = (base, SPLIT :: rest) := by
  unfold baseLines
  cases base with
  | nil => rfl
  | cons l base =>
      show upTo [SPLIT, THEIRS] ((l :: base) ++ SPLIT :: rest) = _
      exact upTo_lines hbase rfl

theorem base_length (h : (behind BASE [SPLIT, THEIRS]
      (baseLines base ++ SPLIT :: rest)).1.length = base.length)
    (l : Line) (hl : l ∈ base) : startsWithAny [SPLIT, THEIRS] l = false := by
  unfold baseLines at h
  cases base with
  | nil => cases hl
  | cons b base => exact upTo_length h l hl

theorem first_stops (base rest : List Line) :
    ∃ m more, startsWithAny [BASE, SPLIT, THEIRS] m = true
      ∧ baseLines base ++ SPLIT :: rest = m :: more := by
  unfold baseLines
  cases base with
  | nil => exact ⟨SPLIT, rest, rfl, rfl⟩
  | cons l base => exact ⟨BASE, _, rfl, rfl⟩

/-- A conflict that has no marker in it is read as it was written. -/
theorem parseConflict_lines
    (h : (Segment.conflict ours base theirs).Unmarked) :
    parseConflict (conflictLines ours base theirs rest)
      = (.conflict ours base theirs, rest) := by
  obtain ⟨hours, hbase, htheirs⟩ := h
  obtain ⟨m, more, hm, hfirst⟩ :=
    first_stops base (theirs ++ THEIRS :: rest)
  have hupTo : upTo [BASE, SPLIT, THEIRS]
      (conflictLines ours base theirs rest)
      = (ours, baseLines base ++ SPLIT :: (theirs ++ THEIRS :: rest)) := by
    unfold conflictLines
    rw [hfirst]
    exact upTo_lines hours hm
  have hsplit : behind SPLIT [THEIRS] (SPLIT :: (theirs ++ THEIRS :: rest))
      = (theirs, THEIRS :: rest) := upTo_lines htheirs rfl
  unfold parseConflict
  rw [hupTo]
  dsimp only
  rw [behind_base hbase]
  dsimp only
  rw [hsplit]
  rfl

/-- How many lines there are in the sections of a segment. -/
def sizes : Segment → List Nat
  | .context lines => [lines.length]
  | .conflict ours base theirs => [ours.length, base.length, theirs.length]

theorem sizes_parseConflict (lines : List Line) :
    sizes (parseConflict lines).1
      = [(upTo [BASE, SPLIT, THEIRS] lines).1.length,
        (behind BASE [SPLIT, THEIRS]
          (upTo [BASE, SPLIT, THEIRS] lines).2).1.length,
        (behind SPLIT [THEIRS] (behind BASE [SPLIT, THEIRS]
          (upTo [BASE, SPLIT, THEIRS] lines).2).2).1.length] := rfl

/-- A conflict that is read in its sizes has no marker in it. -/
theorem unmarked_of_sizes
    (h : sizes (parseConflict (conflictLines ours base theirs rest)).1
      = sizes (.conflict ours base theirs)) :
    (Segment.conflict ours base theirs).Unmarked := by
  obtain ⟨m, more, hm, hfirst⟩ :=
    first_stops base (theirs ++ THEIRS :: rest)
  rw [sizes_parseConflict] at h
  simp only [sizes, List.cons.injEq, and_true] at h
  obtain ⟨hlen, hlenBase, hlenTheirs⟩ := h
  have hours : ∀ l ∈ ours, startsWithAny [BASE, SPLIT, THEIRS] l = false := by
    unfold conflictLines at hlen
    rw [hfirst] at hlen
    exact upTo_length hlen
  have hupTo : upTo [BASE, SPLIT, THEIRS]
      (conflictLines ours base theirs rest)
      = (ours, baseLines base ++ SPLIT :: (theirs ++ THEIRS :: rest)) := by
    unfold conflictLines
    rw [hfirst]
    exact upTo_lines hours hm
  rw [hupTo] at hlenBase hlenTheirs
  have hbase := base_length hlenBase
  rw [behind_base hbase] at hlenTheirs
  exact ⟨hours, hbase, upTo_length hlenTheirs⟩

end

-- == segments

/-- The lines that segments are written as. -/
def rendered : List Segment → List Line
  | [] => []
  | .context lines :: segments => lines ++ rendered segments
  | .conflict ours base theirs :: segments =>
      OURS :: conflictLines ours base theirs (rendered segments)

attribute [grind =] rendered

theorem parseLines_marker (context lines : List Line) :
    parseLines context (OURS :: lines)
      = flush context ++ (parseConflict lines).1
        :: parseLines [] (parseConflict lines).2 := by
  rw [parseLines, if_pos (by decide)]

theorem startsWithAny_singleton (m l : Line) :
    startsWithAny [m] l = startsWith l m := Bool.or_false _

/-- Lines with no marker are context. -/
theorem parseLines_append {lines : List Line} (context rest : List Line)
    (h : ∀ l ∈ lines, startsWithAny [OURS] l = false) :
    parseLines context (lines ++ rest)
      = parseLines (context ++ lines) rest := by
  induction lines generalizing context with
  | nil => rw [List.nil_append, List.append_nil]
  | cons l lines ih =>
      obtain ⟨hl, hlines⟩ := List.forall_mem_cons.mp h
      rw [startsWithAny_singleton] at hl
      rw [List.cons_append, parseLines, if_neg (by simp [hl]), ih _ hlines,
        List.append_assoc, List.singleton_append]

variable {segments : List Segment}

/-- Segments with no markers in them are read as they were written, joined
with the context in front. -/
theorem parse_rendered (context : List Line) (h : ∀ s ∈ segments, s.Unmarked) :
    parseLines context (rendered segments) = joinFrom context segments := by
  induction segments generalizing context with
  | nil => rw [rendered, parseLines, joinFrom]
  | cons s segments ih =>
      obtain ⟨hs, hsegments⟩ := List.forall_mem_cons.mp h
      cases s with
      | context lines =>
          rw [rendered, parseLines_append context _ hs, joinFrom,
            ih _ hsegments]
      | conflict ours base theirs =>
          rw [rendered, parseLines_marker, parseConflict_lines hs, joinFrom,
            ih _ hsegments]

/-- What is joined begins with no less than the context in front. -/
theorem joinFrom_first (segments : List Segment) {context : List Line}
    (h : context ≠ []) : ∃ first more,
      joinFrom context segments = .context first :: more
        ∧ context.length ≤ first.length := by
  induction segments generalizing context with
  | nil =>
      refine ⟨context, [], ?_, Nat.le_refl _⟩
      simp [joinFrom, flush, h]
  | cons s segments ih =>
      cases s with
      | context lines =>
          obtain ⟨first, more, hjoin, hlen⟩ :=
            ih (List.append_ne_nil_of_left_ne_nil h lines)
          rw [List.length_append] at hlen
          exact ⟨first, more, hjoin, Nat.le_trans (Nat.le_add_right _ _) hlen⟩
      | conflict ours base theirs =>
          refine ⟨context, .conflict ours base theirs :: joinFrom [] segments,
            ?_, Nat.le_refl _⟩
          rw [joinFrom, flush, if_neg (by simpa using h)]
          rfl

/-- A line of context that starts with a marker ends the context too
soon. -/
theorem context_of_sizes {lines : List Line} (context : List Line)
    (h : (parseLines context (lines ++ rendered segments)).map sizes
      = (joinFrom (context ++ lines) segments).map sizes) :
    ∀ l ∈ lines, startsWithAny [OURS] l = false := by
  induction lines generalizing context with
  | nil => exact List.forall_mem_nil _
  | cons l lines ih =>
      have hassoc : context ++ l :: lines = context ++ [l] ++ lines := by
        rw [List.append_assoc, List.singleton_append]
      rw [List.cons_append, parseLines] at h
      cases hl : startsWith l OURS with
      | true =>
          have hne : context ++ l :: lines ≠ [] :=
            List.append_ne_nil_of_right_ne_nil _ (List.cons_ne_nil _ _)
          obtain ⟨first, more, hjoin, hlen⟩ := joinFrom_first segments hne
          rw [List.length_append, List.length_cons] at hlen
          rw [if_pos hl, hjoin, flush] at h
          cases context with
          | nil =>
              injection h with h
              injection h with _ h
              cases h
          | cons c context =>
              injection h with h
              injection h with h
              omega
      | false =>
          rw [if_neg (by simp [hl]), hassoc] at h
          refine List.forall_mem_cons.mpr ⟨?_, ih _ h⟩
          rw [startsWithAny_singleton, hl]

/-- Segments that are read in their sizes have no markers in them. -/
theorem unmarked_of_parse (context : List Line)
    (h : (parseLines context (rendered segments)).map sizes
      = (joinFrom context segments).map sizes) :
    ∀ s ∈ segments, s.Unmarked := by
  induction segments generalizing context with
  | nil => exact List.forall_mem_nil _
  | cons s segments ih =>
      cases s with
      | context lines =>
          have hlines := context_of_sizes context h
          rw [rendered, parseLines_append context _ hlines] at h
          exact List.forall_mem_cons.mpr ⟨hlines, ih _ h⟩
      | conflict ours base theirs =>
          rw [rendered, parseLines_marker, joinFrom, List.map_append,
            List.map_append, List.append_cancel_left_eq, List.map_cons,
            List.map_cons] at h
          injection h with hs h
          have hunmarked := unmarked_of_sizes hs
          rw [parseConflict_lines hunmarked] at h
          exact List.forall_mem_cons.mpr ⟨hunmarked, ih _ h⟩

-- == carriage returns

/-- The segment with its lines changed. -/
def Segment.mapLines (f : Line → Line) : Segment → Segment
  | .context lines => .context (lines.map f)
  | .conflict ours base theirs =>
      .conflict (ours.map f) (base.map f) (theirs.map f)

section

variable (f : Line → Line)

theorem lines_mapLines (s : Segment) :
    (s.mapLines f).lines = s.lines.map f := by
  cases s with
  | context lines => rfl
  | conflict ours base theirs =>
      rw [Segment.mapLines, Segment.lines, Segment.lines, List.map_append,
        List.map_append]

theorem sizes_mapLines (s : Segment) : sizes (s.mapLines f) = sizes s := by
  cases s with
  | context lines => rw [Segment.mapLines, sizes, sizes, List.length_map]
  | conflict ours base theirs =>
      rw [Segment.mapLines, sizes, sizes, List.length_map, List.length_map,
        List.length_map]

theorem flush_mapLines (context : List Line) :
    flush (context.map f) = (flush context).map (Segment.mapLines f) := by
  unfold flush
  rw [List.isEmpty_map]
  cases context.isEmpty <;> rfl

theorem joinFrom_mapLines (context : List Line) (segments : List Segment) :
    joinFrom (context.map f) (segments.map (Segment.mapLines f))
      = (joinFrom context segments).map (Segment.mapLines f) := by
  induction segments generalizing context with
  | nil => exact flush_mapLines f context
  | cons s segments ih =>
      cases s with
      | context lines =>
          rw [List.map_cons, Segment.mapLines, joinFrom, joinFrom,
            ← List.map_append, ih]
      | conflict ours base theirs =>
          have hnil := ih []
          rw [List.map_nil] at hnil
          rw [List.map_cons, Segment.mapLines, joinFrom, joinFrom, hnil,
            flush_mapLines, List.map_append, List.map_cons, Segment.mapLines]

theorem rendered_mapLines {f : Line → Line}
    (hf : ∀ m ∈ [OURS, BASE, SPLIT, THEIRS], f m = m)
    (segments : List Segment) :
    rendered (segments.map (Segment.mapLines f))
      = (rendered segments).map f := by
  have hbase (base : List Line) :
      baseLines (base.map f) = (baseLines base).map f := by
    unfold baseLines
    rw [List.isEmpty_map]
    cases base.isEmpty with
    | true => rfl
    | false => exact congrArg (· :: _) (hf BASE (by decide)).symm
  induction segments with
  | nil => rfl
  | cons s segments ih =>
      cases s with
      | context lines =>
          rw [List.map_cons, Segment.mapLines, rendered, rendered, ih,
            List.map_append]
      | conflict ours base theirs =>
          simp only [List.map_cons, Segment.mapLines, rendered,
            conflictLines, ih, hbase, List.map_append, hf OURS (by decide),
            hf SPLIT (by decide), hf THEIRS (by decide)]

/-- The lines of what is joined. -/
theorem joinFrom_lines (context : List Line) (segments : List Segment) :
    (joinFrom context segments).flatMap Segment.lines
      = context ++ segments.flatMap Segment.lines := by
  have hflush (context : List Line) :
      (flush context).flatMap Segment.lines = context := by
    unfold flush
    cases context with
    | nil => rfl
    | cons l context => exact List.append_nil _
  induction segments generalizing context with
  | nil => rw [joinFrom, hflush, List.flatMap_nil, List.append_nil]
  | cons s segments ih =>
      cases s with
      | context lines =>
          rw [joinFrom, ih, List.flatMap_cons, Segment.lines,
            List.append_assoc]
      | conflict ours base theirs =>
          rw [joinFrom, List.flatMap_append, hflush, List.flatMap_cons, ih,
            List.flatMap_cons, List.nil_append]

/-- Joined segments stay as they are where each line does. -/
theorem join_mapLines_eq {segments : List Segment} :
    (join segments).map (Segment.mapLines f) = join segments
      ↔ ∀ s ∈ segments, ∀ l ∈ s.lines, f l = l := by
  constructor
  · intro h s hs l hl
    have hlines := congrArg (List.flatMap Segment.lines) h
    rw [List.flatMap_map] at hlines
    simp only [lines_mapLines] at hlines
    rw [← List.map_flatMap, join, joinFrom_lines, List.nil_append] at hlines
    have hmem : l ∈ segments.flatMap Segment.lines :=
      List.mem_flatMap.mpr ⟨s, hs, hl⟩
    exact List.map_inj_left.mp (hlines.trans (List.map_id _).symm) l hmem
  · intro h
    have hsegment : ∀ s ∈ segments, s.mapLines f = s := by
      intro s hs
      have hmap {ls : List Line} (hls : ∀ l ∈ ls, f l = l) : ls.map f = ls :=
        (List.map_congr_left hls).trans (List.map_id _)
      have hl := h s hs
      cases s with
      | context lines => exact congrArg _ (hmap hl)
      | conflict ours base theirs =>
          have hours := hmap fun l h => hl l
            (List.mem_append_left _ (List.mem_append_left _ h))
          have hbase := hmap fun l h => hl l
            (List.mem_append_left _ (List.mem_append_right _ h))
          have htheirs := hmap fun l h => hl l (List.mem_append_right _ h)
          rw [Segment.mapLines, hours, hbase, htheirs]
    have hsegments : segments.map (Segment.mapLines f) = segments :=
      (List.map_congr_left hsegment).trans (List.map_id _)
    have hjoin := joinFrom_mapLines f [] segments
    rw [List.map_nil, hsegments] at hjoin
    exact hjoin.symm

end

/-- A marker has no carriage return, so that it does not matter whether
one is taken off. -/
theorem startsWith_stripSuffix {c : Char} (hc : c ∉ m) (l : Line) :
    startsWith (stripSuffix c l) m = startsWith l m := by
  unfold stripSuffix
  by_cases hl : l.getLast? = some c
  · obtain ⟨pre, rfl⟩ := List.getLast?_eq_some_iff.mp hl
    rw [if_pos hl, List.dropLast_concat, startsWith, startsWith,
      Bool.eq_iff_iff, List.isPrefixOf_iff_prefix, List.isPrefixOf_iff_prefix,
      List.prefix_concat_iff]
    refine ⟨.inr, fun h => h.resolve_left fun heq => hc ?_⟩
    rw [heq]
    exact List.mem_append_right _ List.mem_cons_self
  · rw [if_neg hl]

theorem startsWithAny_stripSuffix {c : Char} (hc : ∀ m ∈ markers, c ∉ m)
    (l : Line) :
    startsWithAny markers (stripSuffix c l) = startsWithAny markers l := by
  induction markers with
  | nil => rfl
  | cons m markers ih =>
      obtain ⟨hm, hmarkers⟩ := List.forall_mem_cons.mp hc
      have ih := ih hmarkers
      unfold startsWithAny at ih ⊢
      rw [List.any_cons, List.any_cons, ih, startsWith_stripSuffix hm]

theorem unmarked_stripSuffix (s : Segment) :
    (s.mapLines (stripSuffix '\r')).Unmarked ↔ s.Unmarked := by
  have hsection {markers ls : List Line} (hc : ∀ m ∈ markers, '\r' ∉ m) :
      (∀ l ∈ ls.map (stripSuffix '\r'), startsWithAny markers l = false)
        ↔ ∀ l ∈ ls, startsWithAny markers l = false := by
    simp only [List.forall_mem_map, startsWithAny_stripSuffix hc]
  cases s with
  | context lines => exact hsection (by decide)
  | conflict ours base theirs =>
      exact and_congr (hsection (by decide))
        (and_congr (hsection (by decide)) (hsection (by decide)))

-- == texts

theorem conflictResultText_eq (segments : List Segment)
    (blocks : List Block) :
    conflictResultText segments blocks
      = emit (rendered (settle segments blocks)) := by
  induction segments generalizing blocks with
  | nil => rfl
  | cons s segments ih =>
      cases s with
      | context lines =>
          rw [conflictResultText, settle, rendered, emit_append, ih]
      | conflict ours base theirs =>
          rw [conflictResultText, settle, ih]
          cases (blocks.head?.map Block.resolution).getD .none with
          | left => exact (emit_append _ _).symm
          | right => exact (emit_append _ _).symm
          | both =>
              show emit ours ++ emit theirs ++ emit _
                = emit (ours ++ theirs ++ _)
              rw [emit_append, emit_append]
          | none =>
              have hbase : (if base.isEmpty then []
                  else emit [BASE] ++ emit base) = emit (baseLines base) := by
                cases base with
                | nil => rfl
                | cons l base => exact (emit_append [BASE] _).symm
              show emitConflict ours base theirs .none ++ emit _
                = emit (OURS :: conflictLines ours base theirs _)
              rw [emitConflict, hbase, conflictLines]
              simp only [← emit_append, List.append_assoc,
                List.nil_append, List.cons_append]

section

variable {P : Line → Prop}

/-- What holds of the markers and of the lines of segments holds of what
these are written as. -/
theorem rendered_all {segments : List Segment}
    (hmarkers : ∀ m ∈ [OURS, BASE, SPLIT, THEIRS], P m)
    (h : ∀ s ∈ segments, ∀ l ∈ s.lines, P l) :
    ∀ l ∈ rendered segments, P l := by
  have hbase {base : List Line} (h : ∀ l ∈ base, P l) :
      ∀ l ∈ baseLines base, P l := by
    unfold baseLines
    cases base with
    | nil => exact List.forall_mem_nil _
    | cons b base =>
        exact List.forall_mem_cons.mpr ⟨hmarkers BASE (by decide), h⟩
  induction segments with
  | nil => exact List.forall_mem_nil _
  | cons s segments ih =>
      obtain ⟨hs, hsegments⟩ := List.forall_mem_cons.mp h
      have ih := ih hsegments
      cases s with
      | context lines => exact List.forall_mem_append.mpr ⟨hs, ih⟩
      | conflict ours base theirs =>
          obtain ⟨hleft, htheirs⟩ := List.forall_mem_append.mp hs
          obtain ⟨hours, hb⟩ := List.forall_mem_append.mp hleft
          refine List.forall_mem_cons.mpr ⟨hmarkers OURS (by decide), ?_⟩
          refine List.forall_mem_append.mpr ⟨hours, ?_⟩
          refine List.forall_mem_append.mpr ⟨hbase hb, ?_⟩
          refine List.forall_mem_cons.mpr ⟨hmarkers SPLIT (by decide), ?_⟩
          refine List.forall_mem_append.mpr ⟨htheirs, ?_⟩
          exact List.forall_mem_cons.mpr ⟨hmarkers THEIRS (by decide), ih⟩

/-- What holds of the lines of segments holds of those of the settled
ones. -/
theorem settle_all {segments : List Segment} (blocks : List Block)
    (h : ∀ s ∈ segments, ∀ l ∈ s.lines, P l) :
    ∀ s ∈ settle segments blocks, ∀ l ∈ s.lines, P l := by
  induction segments generalizing blocks with
  | nil => exact List.forall_mem_nil _
  | cons s segments ih =>
      obtain ⟨hs, hsegments⟩ := List.forall_mem_cons.mp h
      cases s with
      | context lines =>
          exact List.forall_mem_cons.mpr ⟨hs, ih blocks hsegments⟩
      | conflict ours base theirs =>
          refine List.forall_mem_cons.mpr ⟨?_, ih blocks.tail hsegments⟩
          obtain ⟨hleft, htheirs⟩ := List.forall_mem_append.mp hs
          obtain ⟨hours, -⟩ := List.forall_mem_append.mp hleft
          cases (blocks.head?.map Block.resolution).getD .none with
          | left => exact hours
          | right => exact htheirs
          | both => exact List.forall_mem_append.mpr ⟨hours, htheirs⟩
          | none => exact hs

end

/-- A conflict that is left has its first marker. -/
theorem ours_mem_rendered (h : ∃ s ∈ segments, s.isConflict) :
    OURS ∈ rendered segments := by
  induction segments with
  | nil =>
      obtain ⟨s, hs, -⟩ := h
      cases hs
  | cons s segments ih =>
      cases s with
      | context lines =>
          obtain ⟨s, hs, hconflict⟩ := h
          rcases List.mem_cons.mp hs with rfl | hs
          · cases hconflict
          · exact List.mem_append_right _ (ih ⟨s, hs, hconflict⟩)
      | conflict ours base theirs => exact List.mem_cons_self

/-- The lines a text of conflicts is read as. -/
theorem parseConflicts_text (blocks : List Block)
    (hlines : ∀ s ∈ segments, ∀ l ∈ s.lines, '\n' ∉ l)
    (hleft : ∃ s ∈ settle segments blocks, s.isConflict) :
    parseConflicts (conflictResultText segments blocks)
      = some (parseLines [] (rendered ((settle segments blocks).map
          (Segment.mapLines (stripSuffix '\r'))))) := by
  have hsettled := settle_all blocks hlines
  have hrendered := rendered_all (P := ('\n' ∉ ·)) (by decide) hsettled
  have hmarkers : ∀ m ∈ [OURS, BASE, SPLIT, THEIRS],
      stripSuffix '\r' m = m := by decide
  have hmem : stripSuffix '\r' OURS
      ∈ (rendered (settle segments blocks)).map (stripSuffix '\r') :=
    List.mem_map_of_mem (ours_mem_rendered hleft)
  have hany : ((rendered (settle segments blocks)).map
      (stripSuffix '\r')).any (startsWith · OURS) = true :=
    List.any_eq_true.mpr ⟨_, hmem, by decide⟩
  unfold parseConflicts
  rw [conflictResultText_eq, splitLines_emit hrendered,
    rendered_mapLines hmarkers]
  exact if_pos hany

/-- Parsing gives back the segments with the resolved conflicts as context
if and only if no line starts with a marker that ends what it is in, and
none ends in a carriage return. -/
theorem conflicts_law (segments : List Segment) (blocks : List Block)
    (hlines : ∀ s ∈ segments, ∀ l ∈ s.lines, '\n' ∉ l)
    (hleft : ∃ s ∈ settle segments blocks, s.isConflict) :
    parseConflicts (conflictResultText segments blocks)
        = some (join (settle segments blocks))
      ↔ Clean (settle segments blocks) := by
  rw [parseConflicts_text blocks hlines hleft, Option.some.injEq]
  generalize settle segments blocks = settled
  have hjoin := joinFrom_mapLines (stripSuffix '\r') [] settled
  rw [List.map_nil] at hjoin
  constructor
  · intro h
    have hsizes : (parseLines [] (rendered (settled.map
          (Segment.mapLines (stripSuffix '\r'))))).map sizes
        = (joinFrom [] (settled.map
          (Segment.mapLines (stripSuffix '\r')))).map sizes := by
      rw [h, hjoin, List.map_map]
      exact List.map_congr_left fun s _ => (sizes_mapLines _ s).symm
    have hunmarked := unmarked_of_parse [] hsizes
    rw [parse_rendered [] hunmarked, hjoin] at h
    have hends := (join_mapLines_eq _).mp h
    intro s hs
    refine ⟨(unmarked_stripSuffix s).mp ?_, fun l hl => ?_⟩
    · exact hunmarked _ (List.mem_map_of_mem hs)
    · exact stripSuffix_eq_self.mp (hends s hs l hl)
  · intro h
    have hunmarked : ∀ s ∈ settled.map (Segment.mapLines (stripSuffix '\r')),
        s.Unmarked := by
      refine List.forall_mem_map.mpr fun s hs => ?_
      exact (unmarked_stripSuffix s).mpr (h s hs).1
    rw [parse_rendered [] hunmarked, hjoin]
    refine (join_mapLines_eq _).mpr fun s hs l hl => ?_
    exact stripSuffix_eq_self.mpr ((h s hs).2 l hl)

/-- Two conflicts, and the first of them resolved. -/
def two : List Segment :=
  [.context [['a']], .conflict [['b']] [] [['c']],
    .conflict [['d']] [['e']] [['f']]]

theorem conflicts_law_two :
    parseConflicts (conflictResultText two [⟨0, 1, .both⟩])
        = some [.context [['a'], ['b'], ['c']],
          .conflict [['d']] [['e']] [['f']]]
      ↔ Clean (settle two [⟨0, 1, .both⟩]) :=
  conflicts_law two [⟨0, 1, .both⟩] (by decide) (by decide)

/-- A line that is a marker as git writes it. -/
def IsMarker (l : Line) : Prop :=
  ∃ m ∈ [OURS, BASE, SPLIT, THEIRS], l = m ∨ ∃ label, l = m ++ ' ' :: label

/-- A line of one side that only begins like a marker. -/
def underlined : List Segment :=
  [.conflict ["========".toList] [] [['x']]]

theorem not_conflicts_law_underlined :
    ¬ ∀ (segments : List Segment) (blocks : List Block),
      (∀ s ∈ segments, ∀ l ∈ s.lines, '\n' ∉ l ∧ ¬ IsMarker l) →
      (∃ s ∈ settle segments blocks, s.isConflict) →
      parseConflicts (conflictResultText segments blocks)
        = some (join (settle segments blocks)) := by
  intro h
  have hlen : ∀ m ∈ [OURS, BASE, SPLIT, THEIRS], m.length = 7 := by decide
  have hother : ∀ m ∈ [OURS, BASE, SPLIT, THEIRS],
      "========".toList ≠ m ∧ "========".toList.take 8 ≠ m ++ [' '] := by
    decide
  have hlines : ∀ s ∈ underlined, ∀ l ∈ s.lines,
      '\n' ∉ l ∧ ¬ IsMarker l := by
    rintro s (_ | ⟨_, ⟨⟩⟩) l (_ | ⟨_, _ | ⟨_, ⟨⟩⟩⟩)
    · refine ⟨by decide, ?_⟩
      rintro ⟨m, hm, heq⟩
      rcases heq with heq | ⟨label, heq⟩
      · exact (hother m hm).1 heq
      · refine (hother m hm).2 ?_
        rw [heq, List.take_append, hlen m hm, List.take_of_length_le]
        · rfl
        · rw [hlen m hm]
          decide
    · refine ⟨by decide, ?_⟩
      rintro ⟨m, hm, heq⟩
      have hone : 7 ≤ ['x'].length := by
        rcases heq with heq | ⟨label, heq⟩
        · rw [heq, hlen m hm]
        · rw [heq, List.length_append, hlen m hm]
          exact Nat.le_add_right _ _
      exact absurd hone (by decide)
  have hparse := h underlined [] hlines (by decide)
  have hread : parseConflicts (conflictResultText underlined [])
      = some [.conflict [] [] ["=======".toList, ['x']]] := by
    decide +kernel
  rw [hread] at hparse
  exact absurd hparse (by decide)

end Zmax.DiffView
