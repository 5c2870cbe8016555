/-
zmax-core/src/merge_ops.rs: parsing a unified diff, and applying it to a
text.

Line numbers stay as small as the text is, so that only parsing one can go
wrong.

What applying a parsed diff makes of the text it is a diff of.

The parser gives the lines between a hunk and the next header to the hunk
(`stray`), and behind the last one an empty line; and a hunk that only
inserts is applied one line too early. `Fits` says when none of this shows.
-/
import Mathlib.Tactic.SplitIfs
import Zmax.Core.Proofs.Unified

namespace Zmax.Merge

open Text

inductive HunkLine where
  | context (s : Line)
  | delete (s : Line)
  | insert (s : Line)
  deriving DecidableEq, Repr

structure Hunk where
  oldStart : Nat
  oldLen : Nat
  newStart : Nat
  newLen : Nat
  lines : List HunkLine
  deriving DecidableEq, Repr

/-- Why `apply_unified_diff` refused to apply a patch. -/
inductive PatchError where
  /-- A context or deletion line did not match the original. -/
  | contextMismatch (line : Nat)
  /-- A hunk pointed past the end of the original. -/
  | outOfBounds (line : Nat)
  /-- Hunks were not in order. -/
  | overlap
  deriving DecidableEq, Repr

/-- `parse_range` -/
def parseRange (t : List Char) : Nat × Nat :=
  let it := t.splitOn ','
  ((it[0]?.bind parseUsize).getD 0, (it[1]?.bind parseUsize).getD 1)

/-- A word of a hunk's header. -/
def readWord (ranges : (Nat × Nat) × (Nat × Nat)) (tok : List Char) :
    (Nat × Nat) × (Nat × Nat) :=
  match stripPrefix tok ['-'], stripPrefix tok ['+'] with
  | some t, _ => (parseRange t, ranges.2)
  | none, some t => (ranges.1, parseRange t)
  | none, none => ranges

/-- The hunk of a header, from what follows its `@@`. -/
def readHeader (rest : List Char) : Hunk :=
  let (old, new) := (splitWhitespace rest).foldl readWord ((0, 1), (0, 1))
  ⟨old.1, old.2, new.1, new.2, []⟩

/-- A line below a header. -/
def readLine (line : Line) : List HunkLine :=
  match line with
  | ' ' :: s => [.context s]
  | '-' :: s => [.delete s]
  | '+' :: s => [.insert s]
  -- a blank line in the body is a context line for an empty line
  | [] => [.context []]
  | _ => []

/-- The loop of `parse_unified_diff`, with the hunk it is in. -/
def parseLines : List Line → Option Hunk → List Hunk
  | [], cur => cur.toList
  | line :: lines, cur =>
      match stripPrefix line "@@".toList with
      | some rest => cur.toList ++ parseLines lines (some (readHeader rest))
      | none =>
          parseLines lines
            (cur.map fun h => { h with lines := h.lines ++ readLine line })

def parseUnifiedDiff (diff : Rope) : List Hunk :=
  parseLines (splitLines diff) none

/-- The lines of a hunk against the original from `cur` on: what comes in
their place, and where the hunk ends. -/
def applyLines (orig : List Line) :
    List HunkLine → Nat → Except PatchError (List Line × Nat)
  | [], cur => return ([], cur)
  | .context s :: hls, cur =>
      match orig[cur]? with
      | none => throw (.outOfBounds (cur + 1))
      | some x =>
          if x ≠ s then throw (.contextMismatch (cur + 1))
          else do
            let (out, cur) ← applyLines orig hls (cur + 1)
            return (s :: out, cur)
  | .delete s :: hls, cur =>
      match orig[cur]? with
      | none => throw (.outOfBounds (cur + 1))
      | some x =>
          if x ≠ s then throw (.contextMismatch (cur + 1))
          else applyLines orig hls (cur + 1)
  | .insert s :: hls, cur => do
      let (out, cur) ← applyLines orig hls cur
      return (s :: out, cur)

/-- The loop of `apply_unified_diff` over the hunks. -/
def applyHunks (orig : List Line) :
    List Hunk → Nat → Except PatchError (List Line)
  | [], cur => return orig.drop cur
  | h :: hunks, cur =>
      -- hunk headers are 1-based
      let start := h.oldStart - 1
      if start < cur then throw .overlap
      else if start > orig.length then throw (.outOfBounds h.oldStart)
      else do
        let (out, stop) ← applyLines orig h.lines start
        let rest ← applyHunks orig hunks stop
        return (orig.drop cur).take (start - cur) ++ out ++ rest

def applyUnifiedDiff (original : Rope) (hunks : List Hunk) :
    Except PatchError Rope := do
  let out ← applyHunks (splitLines original) hunks 0
  return joinLines out

attribute [grind =] readWord readLine parseLines applyLines applyHunks

end Zmax.Merge

namespace Zmax.Merge

open Text Unified

-- == headers

theorem parseRange_range {terse : Bool} {before len : Nat}
    (hfits : before + len ≤ USIZE_MAX) :
    parseRange (range terse before len) = (start before len, len) := by
  obtain ⟨hstart, hlen⟩ := @range_numbers terse before len hfits
  unfold parseRange
  simp only [hstart, hlen]

/-- No word of the heading reads like the old file's range. -/
def Plain (heading : List Char) : Prop :=
  ∀ word ∈ splitWhitespace ("@@".toList ++ heading),
    stripPrefix word ['-'] = none

instance (heading : List Char) : Decidable (Plain heading) :=
  inferInstanceAs (Decidable (∀ word ∈ splitWhitespace ("@@".toList ++ heading),
    stripPrefix word ['-'] = none))

theorem foldl_readWord {words : List (List Char)}
    (h : ∀ word ∈ words, stripPrefix word ['-'] = none)
    (ranges : (Nat × Nat) × (Nat × Nat)) :
    (words.foldl readWord ranges).1 = ranges.1 := by
  induction words generalizing ranges with
  | nil => rfl
  | cons word words ih =>
      obtain ⟨hword, hwords⟩ := List.forall_mem_cons.mp h
      rw [List.foldl_cons, ih hwords]
      unfold readWord
      rw [hword]
      cases stripPrefix word ['+'] <;> rfl

/-- The hunk of a written header. -/
def headerOf (h : Unified.Hunk) (o n : Nat) : Hunk :=
  readHeader (middle h o n ++ ("@@".toList ++ h.heading))

theorem headerOf_oldStart {h : Unified.Hunk} {o n : Nat}
    (hplain : Plain h.heading)
    (hfits : o + (oldSide h.body).length ≤ USIZE_MAX) :
    (headerOf h o n).oldStart = start o (oldSide h.body).length := by
  have hminus : ∀ r : List Char, stripPrefix ('-' :: r) ['-'] = some r := by
    simp
  have hplus : ∀ r : List Char, stripPrefix ('+' :: r) ['-'] = none := by
    simp
  have hplus' : ∀ r : List Char, stripPrefix ('+' :: r) ['+'] = some r := by
    simp
  unfold headerOf readHeader
  rw [words_middle, List.foldl_cons, List.foldl_cons]
  simp only [readWord, hminus, hplus, hplus', parseRange_range hfits]
  rw [foldl_readWord hplain]

-- == the lines

def hunkLine : Entry → HunkLine
  | .context line _ => .context line.text
  | .delete line => .delete line.text
  | .insert line => .insert line.text

theorem readLine_entry (e : Entry) : e.written.flatMap readLine = [hunkLine e] := by
  have hnote : ∀ line : Unified.Line, line.note.flatMap readLine = [] := by
    intro line
    unfold Line.note
    split
    · rfl
    · rfl
  cases e with
  | context line bare =>
      rw [Entry.written, List.flatMap_cons, hnote, List.append_nil]
      split
      · rename_i h
        simp [readLine, hunkLine, h.2]
      · rfl
  | delete line =>
      rw [Entry.written, List.flatMap_cons, hnote, List.append_nil]
      rfl
  | insert line =>
      rw [Entry.written, List.flatMap_cons, hnote, List.append_nil]
      rfl

/-- What the parser finds between a hunk and the next header. -/
def stray : List Unified.Hunk → List HunkLine
  | [] => [.context []]
  | h :: _ => (h.head.flatMap Head.written).flatMap readLine

theorem stray_cons (h : Unified.Hunk) (hs : List Unified.Hunk) :
    stray (h :: hs) = (h.head.flatMap Head.written).flatMap readLine := rfl

/-- The hunks as they are parsed. -/
def readFrom (o n : Nat) : List Unified.Hunk → List Hunk
  | [] => []
  | h :: hs =>
      { headerOf h (o + h.kept.length) (n + h.kept.length) with
        lines := h.body.map hunkLine ++ stray hs } ::
        readFrom (o + h.kept.length + (oldSide h.body).length)
          (n + h.kept.length + (newSide h.body).length) hs

attribute [grind =] readFrom

theorem parseLines_below {ls rest : List Line} {cur : Option Hunk}
    (h : ∀ line ∈ ls, stripPrefix line "@@".toList = none) :
    parseLines (ls ++ rest) cur = parseLines rest
      (cur.map fun x => { x with lines := x.lines ++ ls.flatMap readLine }) := by
  induction ls generalizing cur with
  | nil => simp
  | cons line ls ih =>
      obtain ⟨hline, hls⟩ := List.forall_mem_cons.mp h
      rw [List.cons_append, parseLines, hline]
      simp only
      rw [ih hls, Option.map_map]
      congr 2
      funext x
      simp

theorem head_not_header {x : Head} (h : x.WellFormed) :
    ∀ line ∈ x.written, stripPrefix line "@@".toList = none := by
  intro line hline
  cases x with
  | chrome text =>
      rw [List.mem_singleton.mp hline]
      exact chrome_begins h (by decide) _
  | files old new =>
      rcases List.mem_pair.mp hline with rfl | rfl <;> simp

variable {hs : List Unified.Hunk} {hls : List HunkLine} {r : List Line × Nat}
  {α : Type} {post pre out : List Line} {h : Unified.Hunk} {n o : Nat}

theorem parseLines_written (h : ∀ x ∈ hs, x.WellFormed) (o n : Nat)
    (cur : Option Hunk) :
    parseLines (writtenFrom o n hs ++ [[]]) cur =
      (cur.map fun x => { x with lines := x.lines ++ stray hs }).toList ++
        readFrom o n hs := by
  induction hs generalizing o n cur with
  | nil => simp [writtenFrom, parseLines, readFrom, stray, readLine]
  | cons x hs ih =>
      obtain ⟨hx, hhs⟩ := List.forall_mem_cons.mp h
      have hhead : ∀ line ∈ x.head.flatMap Head.written,
          stripPrefix line "@@".toList = none := by
        intro line hline
        obtain ⟨y, hy, hline⟩ := List.mem_flatMap.mp hline
        exact head_not_header (hx.head y hy) line hline
      have hbody : ∀ line ∈ x.body.flatMap Entry.written,
          stripPrefix line "@@".toList = none := by
        intro line hline
        obtain ⟨e, he, hline⟩ := List.mem_flatMap.mp hline
        exact entry_begins hline (by decide) _
      have hlines : (x.body.flatMap Entry.written).flatMap readLine =
          x.body.map hunkLine := by
        rw [List.flatMap_assoc, List.map_eq_flatMap]
        simp only [readLine_entry]
      rw [writtenFrom, List.append_assoc, List.append_assoc,
        parseLines_below hhead, List.cons_append, parseLines, header_eq,
        stripPrefix_append]
      simp only
      rw [parseLines_below hbody, ih hhs]
      simp only [Option.map_some, Option.toList_some, List.singleton_append,
        readFrom, stray_cons, hlines]
      rfl

-- == applying

variable {orig : List Line} {cur : Nat}

theorem applyLines_context (s : Line) (hls : List HunkLine)
    (hget : orig[cur]? = some s) :
    applyLines orig (.context s :: hls) cur =
      (applyLines orig hls (cur + 1)).map fun r => (s :: r.1, r.2) := by
  rw [applyLines]
  simp only [hget, ne_eq, not_true, if_false]
  cases applyLines orig hls (cur + 1) <;> rfl

theorem applyLines_delete (s : Line) (hls : List HunkLine)
    (hget : orig[cur]? = some s) :
    applyLines orig (.delete s :: hls) cur = applyLines orig hls (cur + 1) := by
  rw [applyLines]
  simp only [hget, ne_eq, not_true, if_false]

theorem applyLines_insert (s : Line) (hls : List HunkLine) :
    applyLines orig (.insert s :: hls) cur =
      (applyLines orig hls cur).map fun r => (s :: r.1, r.2) := by
  rw [applyLines]
  cases applyLines orig hls cur <;> rfl

/-- A line that is no insertion has to match. -/
theorem applyLines_matches {s : Line}
    (h : applyLines orig (.context s :: hls) cur = .ok r ∨
      applyLines orig (.delete s :: hls) cur = .ok r) :
    orig[cur]? = some s := by
  rw [applyLines, applyLines] at h
  cases hget : orig[cur]? with
  | none => simp [hget, throw, throwThe, MonadExceptOf.throw] at h
  | some x =>
      by_cases hx : x = s
      · rw [hx]
      · simp [hget, hx, throw, throwThe, MonadExceptOf.throw] at h

theorem map_eq_ok {ε β : Type} {x : Except ε α} {f : α → β} {b : β} :
    x.map f = .ok b ↔ ∃ a, x = .ok a ∧ f a = b := by
  cases x <;> simp [Except.map]

theorem map_append_eq_ok {ε : Type} {x : Except ε (List α)} {xs ys : List α} :
    x.map (xs ++ ·) = .ok (xs ++ ys) ↔ x = .ok ys := by
  cases x <;> simp [Except.map]

/-- The cursor does not go back, and goes on at a line of the original. -/
theorem applyLines_forward (h : applyLines orig hls cur = .ok r) :
    cur ≤ r.2 := by
  induction hls generalizing cur r with
  | nil =>
      injection h with h
      rw [← h]
  | cons hl hls ih =>
      cases hl with
      | context s =>
          rw [applyLines_context s hls (applyLines_matches (.inl h))] at h
          obtain ⟨r', hr', rfl⟩ := map_eq_ok.mp h
          have := ih hr'
          exact Nat.le_of_succ_le this
      | delete s =>
          rw [applyLines_delete s hls (applyLines_matches (.inr h))] at h
          exact Nat.le_of_succ_le (ih h)
      | insert s =>
          rw [applyLines_insert] at h
          obtain ⟨r', hr', rfl⟩ := map_eq_ok.mp h
          have := ih hr'
          exact this

/-- A body against the lines it is of, and what follows it. -/
theorem applyLines_body (body : List Entry) (after : List HunkLine)
    (horig : orig = pre ++ texts (oldSide body) ++ post) :
    applyLines orig (body.map hunkLine ++ after) pre.length =
      (applyLines orig after (pre.length + (oldSide body).length)).map
        fun r => (texts (newSide body) ++ r.1, r.2) := by
  induction body generalizing pre with
  | nil =>
      cases hafter : applyLines orig after pre.length with
      | error e => simp [hafter, Except.map]
      | ok r => simp [hafter, Except.map, texts]
  | cons e body ih =>
      have hmap : ∀ (x : Except PatchError (List Line × Nat)) (s : Line),
          (x.map fun r => (texts (newSide body) ++ r.1, r.2)).map
              (fun r => (s :: r.1, r.2)) =
            x.map fun r => (s :: texts (newSide body) ++ r.1, r.2) := by
        intro x s
        cases x <;> rfl
      rw [List.map_cons, List.cons_append]
      cases e with
      | context line bare =>
          have hget : orig[pre.length]? = some line.text := by
            simp [horig, texts]
          have hnext := @ih (pre ++ [line.text]) (by simp [horig, texts])
          rw [List.length_append, List.length_singleton] at hnext
          rw [hunkLine, applyLines_context _ _ hget, hnext, hmap]
          simp only [oldSide_cons, newSide_cons, Entry.old, Entry.new,
            List.length_append, List.length_singleton, Nat.add_assoc]
          rfl
      | delete line =>
          have hget : orig[pre.length]? = some line.text := by
            simp [horig, texts]
          have hnext := @ih (pre ++ [line.text]) (by simp [horig, texts])
          rw [List.length_append, List.length_singleton] at hnext
          rw [hunkLine, applyLines_delete _ _ hget, hnext]
          simp only [oldSide_cons, newSide_cons, Entry.old, Entry.new,
            List.length_append, List.length_singleton, Nat.add_assoc]
          rfl
      | insert line =>
          rw [hunkLine, applyLines_insert, ih (by simpa using horig), hmap]
          simp only [oldSide_cons, newSide_cons, Entry.old, Entry.new]
          rfl

-- == the rest

/-- From the lines behind a body on. -/
def finish (orig : List Line) (o n : Nat) (hs : List Unified.Hunk)
    (cur : Nat) : Except PatchError (List Line) :=
  match applyLines orig (stray hs) cur with
  | .error e => .error e
  | .ok (out, stop) => (applyHunks orig (readFrom o n hs) stop).map (out ++ ·)

/-- A hunk that starts where the code is, or behind it. -/
theorem applyHunks_cons
    (hstart : (headerOf h (o + h.kept.length) (n + h.kept.length)).oldStart - 1 =
      pre.length)
    (hle : cur ≤ pre.length)
    (horig : orig = pre ++ texts (oldSide h.body) ++ post) :
    applyHunks orig (readFrom o n (h :: hs)) cur =
      (finish orig (o + h.kept.length + (oldSide h.body).length)
        (n + h.kept.length + (newSide h.body).length) hs
        (pre.length + (oldSide h.body).length)).map
          (pre.drop cur ++ texts (newSide h.body) ++ ·) := by
  have hlen : ¬ pre.length > orig.length := by simp [horig]
  have hgap : (orig.drop cur).take (pre.length - cur) = pre.drop cur := by
    rw [horig, List.append_assoc, List.drop_append_of_le_length hle,
      List.take_left' (by simp)]
  rw [readFrom, applyHunks]
  simp only [hstart, if_neg (Nat.not_lt.mpr hle), if_neg hlen, hgap,
    applyLines_body h.body (stray hs) horig]
  unfold finish
  cases applyLines orig (stray hs) (pre.length + (oldSide h.body).length) with
  | error e => rfl
  | ok r =>
      obtain ⟨out, stop⟩ := r
      cases hrest : applyHunks orig
          (readFrom (o + h.kept.length + (oldSide h.body).length)
            (n + h.kept.length + (newSide h.body).length) hs) stop with
      | error e => simp [hrest, Except.map, bind, Except.bind]
      | ok rest =>
          simp [hrest, Except.map, bind, Except.bind, pure, Except.pure]

/-- Equal items in front of some others can be moved behind one more. -/
theorem append_eq_cons_append {xs ys zs : List α} {x : α} :
    xs ++ ys = x :: (xs ++ zs) ↔ (∀ y ∈ xs, y = x) ∧ ys = x :: zs := by
  induction xs generalizing x with
  | nil => simp
  | cons a xs ih =>
      rw [List.cons_append, List.cons_append, List.cons.injEq, ih,
        List.forall_mem_cons]
      constructor
      · rintro ⟨rfl, hxs, hys⟩
        exact ⟨⟨rfl, hxs⟩, hys⟩
      · rintro ⟨⟨rfl, hxs⟩, hys⟩
        exact ⟨rfl, hxs, hys⟩

/-- No hunk has file headers in front. -/
def NoFiles (hs : List Unified.Hunk) : Prop :=
  ∀ h ∈ hs, ∀ old new, Head.files old new ∉ h.head

/-- The first file header below a hunk reads as two lines of it. -/
theorem stray_head (hh : h.WellFormed) (hs : List Unified.Hunk) :
    (∀ old new, Head.files old new ∉ h.head) ∧ stray (h :: hs) = [] ∨
      (∃ old new, Head.files old new ∈ h.head) ∧
        ∃ old new after, stray (h :: hs) =
          .delete ("-- ".toList ++ old) :: .insert ("++ ".toList ++ new) ::
            after := by
  have hwell := hh.head
  rw [stray_cons]
  generalize h.head = heads at hwell
  induction heads with
  | nil => exact .inl ⟨by simp, rfl⟩
  | cons x heads ih =>
      obtain ⟨hx, hheads⟩ := List.forall_mem_cons.mp hwell
      cases x with
      | chrome text =>
          obtain ⟨⟨c, rest, rfl, hc⟩, -⟩ := hx
          have hread : readLine (c :: rest) = [] := by
            have hne : ∀ d : Char, ¬ (d.isAlphanum ∨ d = '=') → c ≠ d := by
              rintro d hd rfl
              exact hd hc
            unfold readLine
            split
            · rename_i heq
              injection heq with heq
              exact absurd heq (hne ' ' (by decide))
            · rename_i heq
              injection heq with heq
              exact absurd heq (hne '-' (by decide))
            · rename_i heq
              injection heq with heq
              exact absurd heq (hne '+' (by decide))
            · rename_i heq
              cases heq
            · rfl
          rcases ih hheads with ⟨hnone, hstray⟩ | ⟨⟨old, new, hmem⟩, hstray⟩
          · refine .inl ⟨by simpa using hnone, ?_⟩
            simpa [Head.written, hread] using hstray
          · refine .inr ⟨⟨old, new, List.mem_cons_of_mem _ hmem⟩, ?_⟩
            simpa [Head.written, hread] using hstray
      | files old new =>
          refine .inr ⟨⟨old, new, List.mem_cons_self⟩, old, new,
            (heads.flatMap Head.written).flatMap readLine, ?_⟩
          simp [Head.written, readLine]

/-- Whether the rest of a diff gets through where `o` lines of the text are
before it: `above` is the last of them if the code is one line behind. -/
def Fits (kept : List Unified.Line) :
    Nat → Option Line → List Unified.Hunk → Prop
  | _, some l, [] => l = []
  | _, none, [] => (texts kept).head? = some []
  | o, above, h :: hs =>
      let p := o + h.kept.length
      if oldSide h.body ≠ [] then
        Fits kept (p + (oldSide h.body).length) none hs
      else if p = 0 then Fits kept 0 none hs
      else
        ∃ l, (texts h.kept).getLast?.or above = some l ∧
          (∀ x ∈ newSide h.body, x.text = l) ∧ Fits kept p (some l) hs

attribute [grind =] Fits

/-- Behind the last hunk the next line has to be empty. -/
theorem finish_nil :
    finish orig o n [] cur = .ok out ↔
      orig[cur]? = some [] ∧ orig.drop cur = out := by
  unfold finish
  rw [stray, readFrom]
  by_cases hget : orig[cur]? = some []
  · obtain ⟨hlt, hline⟩ := List.getElem?_eq_some_iff.mp hget
    rw [applyLines_context _ _ hget]
    simp [applyLines, applyHunks, Except.map, pure, Except.pure, hget,
      List.drop_eq_getElem_cons hlt, hline]
  · constructor
    · intro h
      cases hlines : applyLines orig [.context []] cur with
      | error e => simp [hlines] at h
      | ok r => exact absurd (applyLines_matches (.inl hlines)) hget
    · rintro ⟨h, -⟩
      exact absurd h hget

theorem finish_of_stray (hstray : stray (h :: hs) = []) :
    finish orig o n (h :: hs) cur =
      applyHunks orig (readFrom o n (h :: hs)) cur := by
  unfold finish
  rw [hstray]
  simp only [applyLines, pure, Except.pure]
  cases applyHunks orig (readFrom o n (h :: hs)) cur <;> rfl

/-- A hunk that starts above the cursor. -/
theorem applyHunks_overlap
    (hstart : (headerOf h (o + h.kept.length)
      (n + h.kept.length)).oldStart - 1 < cur) :
    applyHunks orig (readFrom o n (h :: hs)) cur ≠ .ok out := by
  rw [readFrom, applyHunks]
  simp only [if_pos hstart]
  intro h
  cases h

/-- The text from the cursor on: the line the code is behind with comes
first. -/
theorem drop_above {pre ks : List Line} {above : Option Line}
    (habove : ∀ l, above = some l → pre.getLast? = some l) :
    (pre ++ ks).drop (pre.length - above.toList.length) =
      above.toList ++ ks := by
  cases above with
  | none => simp
  | some l =>
      obtain ⟨front, rfl⟩ := List.getLast?_eq_some_iff.mp (habove l rfl)
      simp

/-- The line above a place, if the cursor is not past it. -/
theorem line_above {ks front : List Line} {above : Option Line} {l : Line}
    (habove : ∀ l, above = some l → pre.getLast? = some l)
    (hfront : pre ++ ks = front ++ [l]) (hfree : ks.getLast?.or above ≠ none) :
    ks.getLast?.or above = some l ∧
      pre.length - above.toList.length ≤ front.length := by
  have hlen := congrArg List.length hfront
  simp only [List.length_append, List.length_singleton] at hlen
  cases hlast : ks.getLast? with
  | some k =>
      obtain ⟨ks', rfl⟩ := List.getLast?_eq_some_iff.mp hlast
      have hend : pre ++ ks' ++ [k] = front ++ [l] := by
        rw [← hfront, List.append_assoc]
      have hk : [k] = [l] := (List.append_inj' hend rfl).2
      simp only [List.length_append, List.length_singleton] at hlen
      exact ⟨congrArg some (List.singleton_inj.mp hk), by omega⟩
  | none =>
      obtain rfl := List.getLast?_eq_none_iff.mp hlast
      cases above with
      | none => exact absurd rfl hfree
      | some k =>
          have hk := habove k rfl
          rw [List.append_nil] at hfront
          rw [hfront, List.getLast?_concat] at hk
          rw [List.length_nil] at hlen
          refine ⟨hk.symm, ?_⟩
          simp only [Option.toList_some, List.length_singleton]
          omega

/-- Insertions that come one line too early do no harm if they are that
line. -/
theorem applyHunks_early {front rest : List Line} {l : Line}
    (hold : oldSide h.body = [])
    (hstart : (headerOf h (o + h.kept.length) (n + h.kept.length)).oldStart - 1 =
      front.length)
    (hle : cur ≤ front.length) (horig : orig = front ++ post) :
    applyHunks orig (readFrom o n (h :: hs)) cur =
        .ok (front.drop cur ++ l :: (texts (newSide h.body) ++ rest)) ↔
      (∀ x ∈ newSide h.body, x.text = l) ∧
        finish orig (o + h.kept.length)
          (n + h.kept.length + (newSide h.body).length) hs front.length =
          .ok (l :: rest) := by
  have horig' : orig = front ++ texts (oldSide h.body) ++ post := by
    simp [hold, horig]
  have hall : (∀ x ∈ newSide h.body, x.text = l) ↔
      ∀ y ∈ texts (newSide h.body), y = l := by
    simp [texts]
  rw [applyHunks_cons hstart hle horig', map_eq_ok, hall]
  simp only [List.append_assoc, List.append_cancel_left_eq,
    append_eq_cons_append, hold, List.length_nil, Nat.add_zero]
  constructor
  · rintro ⟨out, hout, hsame, rfl⟩
    exact ⟨hsame, hout⟩
  · rintro ⟨hsame, hout⟩
    exact ⟨_, hout, hsame, rfl⟩

/-- File headers below the hunk before, read as lines of it. -/
theorem finish_files {kept : List Unified.Line} {h : Unified.Hunk}
    {hs : List Unified.Hunk} {pre : List Line} {above : Option Line} {n : Nat}
    {old new : List Char} {after : List HunkLine}
    (horig : orig = pre ++ texts (oldFrom kept (h :: hs)))
    (habove : ∀ l, above = some l → pre.getLast? = some l)
    (hbefore : (headerOf h (pre.length + h.kept.length)
      (n + h.kept.length)).oldStart =
        start (pre.length + h.kept.length) (oldSide h.body).length)
    (hstray : stray (h :: hs) = .delete ("-- ".toList ++ old) ::
      .insert ("++ ".toList ++ new) :: after) :
    finish orig pre.length n (h :: hs) (pre.length - above.toList.length) ≠
      .ok (above.toList ++ texts (newFrom kept (h :: hs))) := by
  intro hok
  rw [oldFrom] at horig
  unfold finish at hok
  rw [hstray] at hok
  cases hlines : applyLines orig (.delete ("-- ".toList ++ old) ::
      .insert ("++ ".toList ++ new) :: after)
      (pre.length - above.toList.length) with
  | error e =>
      rw [hlines] at hok
      cases hok
  | ok r =>
      have hget := applyLines_matches (.inr hlines)
      rw [hlines] at hok
      rw [applyLines_delete _ _ hget, applyLines_insert] at hlines
      obtain ⟨r', hr', rfl⟩ := map_eq_ok.mp hlines
      have hforward := applyLines_forward hr'
      obtain ⟨rest, hrest, heq⟩ := map_eq_ok.mp hok
      cases above with
      | some l =>
          obtain ⟨front, rfl⟩ := List.getLast?_eq_some_iff.mp (habove l rfl)
          simp [horig] at hget heq
          rw [hget] at heq
          simp at heq
      | none =>
          cases hkept : h.kept with
          | nil =>
              refine applyHunks_overlap ?_ hrest
              rw [hbefore, hkept]
              unfold start
              simp only [Option.toList_none, List.length_nil] at hforward ⊢
              split_ifs <;> omega
          | cons k ks =>
              simp [horig, hkept, texts] at hget
              simp [newFrom, hkept, texts, hget] at heq

theorem finish_iff {kept : List Unified.Line} {hs : List Unified.Hunk}
    (hwell : ∀ h ∈ hs, h.WellFormed) (hplain : ∀ h ∈ hs, Plain h.heading)
    {pre : List Line} {above : Option Line} (n : Nat)
    (horig : orig = pre ++ texts (oldFrom kept hs))
    (hfits : orig.length ≤ USIZE_MAX)
    (habove : ∀ l, above = some l → pre.getLast? = some l) :
    finish orig pre.length n hs (pre.length - above.toList.length) =
        .ok (above.toList ++ texts (newFrom kept hs)) ↔
      NoFiles hs ∧ Fits kept pre.length above hs := by
  induction hs generalizing pre above n with
  | nil =>
      have hnone : NoFiles [] := by simp [NoFiles]
      rw [oldFrom] at horig
      rw [finish_nil]
      cases above with
      | none =>
          simp [horig, Fits, hnone, newFrom, List.getElem?_append_right,
            List.head?_eq_getElem?]
      | some l =>
          obtain ⟨front, rfl⟩ := List.getLast?_eq_some_iff.mp (habove l rfl)
          simp [horig, Fits, hnone, newFrom]
  | cons h hs ih =>
      obtain ⟨hh, hhs⟩ := List.forall_mem_cons.mp hwell
      obtain ⟨hhead, hheads⟩ := List.forall_mem_cons.mp hplain
      have hlen : pre.length + h.kept.length + (oldSide h.body).length ≤
          orig.length := by
        simp [horig, oldFrom]
        omega
      have hbefore := @headerOf_oldStart h (pre.length + h.kept.length)
        (n + h.kept.length) hhead (by omega)
      have hnofiles : NoFiles (h :: hs) ↔
          (∀ old new, Head.files old new ∉ h.head) ∧ NoFiles hs := by
        simp [NoFiles]
      rcases stray_head hh hs with ⟨hnone, hstray⟩ | ⟨⟨old, new, hmem⟩, hstray⟩
      · rw [finish_of_stray hstray, hnofiles, Fits]
        simp only [hnone, not_false_eq_true, implies_true, true_and]
        -- the text above the hunk, and how much of it is still to come
        have hdrop := @drop_above pre (texts h.kept) above habove
        generalize hmid : pre ++ texts h.kept = mid at hdrop
        have hmidlen : mid.length = pre.length + h.kept.length := by
          simp [← hmid]
        have hmidorig : orig = mid ++ texts (oldSide h.body) ++
            texts (oldFrom kept hs) := by
          simp [horig, oldFrom, ← hmid]
        have hnew : above.toList ++ texts (newFrom kept (h :: hs)) =
            above.toList ++ texts h.kept ++ (texts (newSide h.body) ++
              texts (newFrom kept hs)) := by
          simp [newFrom]
        have hlevel : (headerOf h (pre.length + h.kept.length)
              (n + h.kept.length)).oldStart - 1 = mid.length →
            (applyHunks orig (readFrom pre.length n (h :: hs))
                (pre.length - above.toList.length) =
                .ok (above.toList ++ texts (newFrom kept (h :: hs))) ↔
              NoFiles hs ∧ Fits kept (mid.length + (oldSide h.body).length)
                none hs) := by
          intro hstart
          rw [applyHunks_cons hstart (by omega) hmidorig, hdrop, hnew,
            ← List.append_assoc, map_append_eq_ok]
          have hnext := @ih hhs hheads (mid ++ texts (oldSide h.body)) none
            (n + h.kept.length + (newSide h.body).length) hmidorig (by simp)
          simpa [hmidlen] using hnext
        by_cases hold : oldSide h.body = []
        · rw [if_neg (not_not.mpr hold)]
          by_cases hzero : pre.length + h.kept.length = 0
          · have hstart := hbefore
            rw [hold, start, List.length_nil, if_pos rfl] at hstart
            rw [if_pos hzero, hlevel (by omega), hold, hmidlen, hzero]
            rfl
          rw [if_neg hzero]
          -- applied one line too early
          obtain ⟨front, l, hfront⟩ : ∃ front l, mid = front ++ [l] := by
            refine ⟨mid.dropLast, mid.getLast ?_,
              (List.dropLast_append_getLast _).symm⟩
            exact List.ne_nil_of_length_pos (by omega)
          have hfrontlen : front.length + 1 = mid.length := by simp [hfront]
          have hstart : (headerOf h (pre.length + h.kept.length)
              (n + h.kept.length)).oldStart - 1 = front.length := by
            rw [hbefore, hold, start, List.length_nil, if_pos rfl]
            omega
          by_cases hfree : (texts h.kept).getLast?.or above = none
          · obtain ⟨hnokept, rfl⟩ := Option.or_eq_none_iff.mp hfree
            have hkept := List.getLast?_eq_none_iff.mp hnokept
            refine iff_of_false (applyHunks_overlap ?_) (by simp [hfree])
            rw [hstart, Option.toList_none, List.length_nil]
            rw [hkept, List.append_nil] at hmid
            rw [hmid]
            omega
          · obtain ⟨hline, hle⟩ :=
              line_above habove (hmid.trans hfront) hfree
            have hnext := @ih hhs hheads mid (some l)
              (n + h.kept.length + (newSide h.body).length)
              (by simpa [hold] using hmidorig) (by simp [hfront])
            rw [Option.toList_some, List.length_singleton,
              show mid.length - 1 = front.length from by omega, hmidlen,
              List.singleton_append] at hnext
            have hcut : above.toList ++ texts h.kept =
                front.drop (pre.length - above.toList.length) ++ [l] := by
              rw [← hdrop, hfront, List.drop_append_of_le_length hle]
            have hfrontorig : orig = front ++ (l :: texts (oldFrom kept hs)) := by
              simp [hmidorig, hfront, hold]
            rw [hnew, hcut, List.append_assoc, List.singleton_append,
              applyHunks_early hold hstart hle hfrontorig, hnext, hline]
            constructor
            · rintro ⟨hsame, hno, hfit⟩
              exact ⟨hno, l, rfl, hsame, hfit⟩
            · rintro ⟨hno, l', heq, hsame, hfit⟩
              obtain rfl := Option.some.inj heq
              exact ⟨hsame, hno, hfit⟩
        · have hpos := List.length_pos_iff.mpr hold
          rw [if_pos hold, hlevel, hmidlen]
          rw [hbefore, start, if_neg (by omega)]
          omega
      · obtain ⟨old', new', after, hstray⟩ := hstray
        exact iff_of_false (finish_files horig habove hbefore hstray)
          fun hfit => (hnofiles.mp hfit.1).1 old new hmem

-- == the text

/-- What comes out of a line of a hunk. -/
def HunkLine.new : HunkLine → List Line
  | .context s => [s]
  | .delete _ => []
  | .insert s => [s]

theorem applyLines_new (h : applyLines orig hls cur = .ok r) :
    r.1 = hls.flatMap HunkLine.new := by
  induction hls generalizing cur r with
  | nil =>
      injection h with h
      rw [← h]
      rfl
  | cons hl hls ih =>
      rw [List.flatMap_cons]
      cases hl with
      | context s =>
          rw [applyLines_context s hls (applyLines_matches (.inl h))] at h
          obtain ⟨r', hr', rfl⟩ := map_eq_ok.mp h
          exact congrArg _ (ih hr')
      | delete s =>
          rw [applyLines_delete s hls (applyLines_matches (.inr h))] at h
          exact ih h
      | insert s =>
          rw [applyLines_insert] at h
          obtain ⟨r', hr', rfl⟩ := map_eq_ok.mp h
          exact congrArg _ (ih hr')

/-- Lines that come out are lines of the original or of a hunk, and all of
the hunks do. -/
theorem applyHunks_mem {hunks : List Hunk}
    (h : applyHunks orig hunks cur = .ok out) :
    (∀ line ∈ out, line ∈ orig ∨
      ∃ x ∈ hunks, line ∈ x.lines.flatMap HunkLine.new) ∧
    ∀ x ∈ hunks, ∀ line ∈ x.lines.flatMap HunkLine.new, line ∈ out := by
  induction hunks generalizing cur out with
  | nil =>
      injection h with h
      rw [← h]
      exact ⟨fun line hline => .inl (List.mem_of_mem_drop hline), by simp⟩
  | cons x hunks ih =>
      rw [applyHunks] at h
      simp only at h
      split at h
      · cases h
      split at h
      · cases h
      cases hlines : applyLines orig x.lines (x.oldStart - 1) with
      | error e =>
          rw [hlines] at h
          cases h
      | ok r =>
          obtain ⟨new, stop⟩ := r
          cases hrest : applyHunks orig hunks stop with
          | error e =>
              rw [hlines] at h
              simp [hrest, bind, Except.bind] at h
          | ok rest =>
              rw [hlines] at h
              simp only [hrest, bind, Except.bind, pure, Except.pure,
                Except.ok.injEq] at h
              obtain ⟨hfrom, hto⟩ := ih hrest
              have hnew := applyLines_new hlines
              simp only at hnew
              subst h hnew
              constructor
              · intro line hline
                rcases List.mem_append.mp hline with hline | hline
                · rcases List.mem_append.mp hline with hline | hline
                  · exact .inl
                      (List.mem_of_mem_drop (List.mem_of_mem_take hline))
                  · exact .inr ⟨x, List.mem_cons_self, hline⟩
                · rcases hfrom line hline with hline | ⟨y, hy, hline⟩
                  · exact .inl hline
                  · exact .inr ⟨y, List.mem_cons_of_mem _ hy, hline⟩
              · intro y hy line hline
                rcases List.mem_cons.mp hy with rfl | hy
                · exact List.mem_append_left _ (List.mem_append_right _ hline)
                · exact List.mem_append_right _ (hto y hy line hline)

theorem readLine_new {s : Line} (h : '\n' ∉ s) :
    ∀ line ∈ (readLine s).flatMap HunkLine.new, '\n' ∉ line := by
  intro line hline
  unfold readLine at hline
  split at hline
  · rw [List.mem_singleton.mp hline]
    exact fun hmem => h (List.mem_cons_of_mem _ hmem)
  · cases hline
  · rw [List.mem_singleton.mp hline]
    exact fun hmem => h (List.mem_cons_of_mem _ hmem)
  · rw [List.mem_singleton.mp hline]
    exact List.not_mem_nil
  · cases hline

theorem stray_new (hwell : ∀ h ∈ hs, h.WellFormed) :
    ∀ line ∈ (stray hs).flatMap HunkLine.new, '\n' ∉ line := by
  cases hs with
  | nil => simp [stray, HunkLine.new]
  | cons h hs =>
      rw [stray_cons, List.flatMap_assoc]
      intro line hline
      obtain ⟨s, hs, hline⟩ := List.mem_flatMap.mp hline
      obtain ⟨x, hx, hs⟩ := List.mem_flatMap.mp hs
      exact readLine_new (head_no_newline
        ((hwell h List.mem_cons_self).head x hx) s hs) line hline

/-- What is read below a header is text of the diff. -/
theorem readFrom_new (hwell : ∀ h ∈ hs, h.WellFormed)
    (htext : ∀ h ∈ hs, ∀ e ∈ h.body, '\n' ∉ e.line.text) (o n : Nat) :
    ∀ x ∈ readFrom o n hs, ∀ line ∈ x.lines.flatMap HunkLine.new,
      '\n' ∉ line := by
  induction hs generalizing o n with
  | nil => simp [readFrom]
  | cons h hs ih =>
      obtain ⟨hh, hhs⟩ := List.forall_mem_cons.mp hwell
      obtain ⟨htexth, htexths⟩ := List.forall_mem_cons.mp htext
      intro x hx line hline
      rcases List.mem_cons.mp hx with rfl | hx
      · simp only [List.flatMap_append, List.mem_append] at hline
        rcases hline with hline | hline
        · obtain ⟨hl, hhl, hline⟩ := List.mem_flatMap.mp hline
          obtain ⟨e, he, rfl⟩ := List.mem_map.mp hhl
          have := htexth e he
          cases e with
          | context l bare => exact List.mem_singleton.mp hline ▸ this
          | delete l => cases hline
          | insert l => exact List.mem_singleton.mp hline ▸ this
        · exact stray_new hhs line hline
      · exact ih hhs htexths _ _ x hx line hline

/-- Behind the last hunk an empty line is read. -/
theorem nil_mem_readFrom (hne : hs ≠ []) (o n : Nat) :
    ∃ x ∈ readFrom o n hs, [] ∈ x.lines.flatMap HunkLine.new := by
  induction hs generalizing o n with
  | nil => exact absurd rfl hne
  | cons h hs ih =>
      rw [readFrom]
      cases hs with
      | nil =>
          refine ⟨_, List.mem_cons_self, ?_⟩
          simp [stray, HunkLine.new]
      | cons h' hs =>
          obtain ⟨x, hx, hmem⟩ := ih (by simp)
            (o + h.kept.length + (oldSide h.body).length)
            (n + h.kept.length + (newSide h.body).length)
          exact ⟨x, List.mem_cons_of_mem _ hx, hmem⟩

theorem parse_written {p : Patch} (hp : p.WellFormed) :
    parseUnifiedDiff p.written = readFrom 0 0 p.hunks := by
  unfold parseUnifiedDiff Patch.written splitLines
  rw [Patch.lines,
    splitOn_unlines (written_no_newline hp.hunks hp.text 0 0),
    parseLines_written hp.hunks]
  rfl

/-- Applying a parsed diff to its old file gives its new file, just when no
file headers stand between its hunks, hunks that only insert are at the top
or repeat the line above them, and the line behind the last hunk is empty. -/
theorem unified_diff_law (original changed : Rope) (p : Patch)
    (hp : p.WellFormed) (hold : texts p.old = splitLines original)
    (hnew : texts p.new = splitLines changed)
    (hfits : p.old.length ≤ USIZE_MAX)
    (hplain : ∀ h ∈ p.hunks, Plain h.heading) :
    applyUnifiedDiff original (parseUnifiedDiff p.written) = .ok changed ↔
      p.hunks = [] ∨ NoFiles p.hunks.tail ∧ Fits p.kept 0 none p.hunks := by
  rw [parse_written hp]
  unfold applyUnifiedDiff
  rw [← hold]
  cases hhunks : p.hunks with
  | nil =>
      have hsame : texts p.old = texts p.new := by
        simp [Patch.old, Patch.new, hhunks, oldFrom, newFrom]
      simp [readFrom, applyHunks, bind, Except.bind, pure, Except.pure]
      rw [hsame, hnew, join_split]
  | cons h hs =>
      have hwell := hp.hunks
      have htext := hp.text
      rw [hhunks] at hwell htext hplain
      -- headers in front of the first hunk are not read
      have hfirst : ∀ x ∈ { h with head := [] } :: hs, x.WellFormed ∧
          Plain x.heading := by
        obtain ⟨hh, hhs⟩ := List.forall_mem_cons.mp hwell
        obtain ⟨hheading, hheadings⟩ := List.forall_mem_cons.mp hplain
        exact List.forall_mem_cons.mpr
          ⟨⟨⟨by simp, hh.heading, hh.change⟩, hheading⟩,
            fun x hx => ⟨hhs x hx, hheadings x hx⟩⟩
      have hrun := @finish_iff (texts p.old) p.kept ({ h with head := [] } :: hs)
        (fun x hx => (hfirst x hx).1) (fun x hx => (hfirst x hx).2) [] none 0
        (by rw [Patch.old, hhunks]; rfl) (by simpa using hfits) (by simp)
      rw [finish_of_stray rfl] at hrun
      have hnofiles : NoFiles ({ h with head := [] } :: hs) ↔ NoFiles hs := by
        simp [NoFiles]
      rw [hnofiles] at hrun
      have hout : texts (newFrom p.kept ({ h with head := [] } :: hs)) =
          splitLines changed := by
        rw [← hnew, Patch.new, hhunks]
        rfl
      rw [Option.toList_none, List.nil_append, hout] at hrun
      rw [List.tail_cons]
      simp only [reduceCtorEq, false_or]
      refine Iff.trans ?_ hrun
      constructor
      · intro hchanged
        cases hlines : applyHunks (texts p.old) (readFrom 0 0 (h :: hs)) 0 with
        | error e =>
            rw [hlines] at hchanged
            cases hchanged
        | ok out =>
            rw [hlines] at hchanged
            have hjoin : joinLines out = changed := Except.ok.inj hchanged
            obtain ⟨hfrom, hto⟩ := applyHunks_mem hlines
            obtain ⟨x, hx, hnil⟩ := nil_mem_readFrom (List.cons_ne_nil h hs) 0 0
            have hne : out ≠ [] := List.ne_nil_of_mem (hto x hx [] hnil)
            have hclean : ∀ line ∈ out, '\n' ∉ line := by
              intro line hline
              rcases hfrom line hline with hline | ⟨y, hy, hline⟩
              · rw [hold] at hline
                exact no_newline line hline
              · exact readFrom_new hwell htext 0 0 y hy line hline
            refine hlines.trans (congrArg _ ?_)
            rw [← hjoin, split_join hne hclean]
      · intro hlines
        have hlines : applyHunks (texts p.old) (readFrom 0 0 (h :: hs)) 0 =
            .ok (splitLines changed) := hlines
        rw [hlines]
        exact congrArg _ (join_split changed)

/-- A diff that replaces the line `y`, with a line kept above it and others
below. -/
def samplePatch (below : List Unified.Line) : Patch where
  hunks := [{
    head := [.files ['a'] ['b']]
    kept := [⟨['x'], true⟩]
    body := [.delete ⟨['y'], true⟩, .insert ⟨['z'], true⟩]
    terseOld := false
    terseNew := false
    heading := [] }]
  kept := below

theorem samplePatch_wellFormed {line : Unified.Line} (h : '\n' ∉ line.text) :
    (samplePatch [line]).WellFormed where
  hunks := by
    intro x hx
    rw [List.mem_singleton.mp hx]
    refine ⟨?_, List.not_mem_nil, .delete ⟨['y'], true⟩, by simp, trivial⟩
    simp [Head.WellFormed]
  old := ⟨by simp [samplePatch, Patch.old, oldFrom, h],
    by simp [samplePatch, Patch.old, oldFrom]⟩
  new := ⟨by simp [samplePatch, Patch.new, newFrom, h],
    by simp [samplePatch, Patch.new, newFrom]⟩

/-- The changed line is the last of a text that ends in a newline. -/
theorem unified_diff_law_last :
    applyUnifiedDiff ['x', '\n', 'y', '\n']
        (parseUnifiedDiff (samplePatch [⟨[], false⟩]).written) =
      .ok ['x', '\n', 'z', '\n'] :=
  (unified_diff_law _ _ (samplePatch [⟨[], false⟩])
    (samplePatch_wellFormed List.not_mem_nil) (by decide) (by decide)
    (by decide) (by decide)).mpr (.inr ⟨by simp [samplePatch, NoFiles],
      by simp [samplePatch, Fits, texts]⟩)

/-- Below the changed line is another one. -/
theorem not_unified_diff_law_below :
    ¬ ∀ (original changed : Rope) (p : Patch), p.WellFormed →
      texts p.old = splitLines original →
      texts p.new = splitLines changed →
      applyUnifiedDiff original (parseUnifiedDiff p.written) = .ok changed := by
  intro h
  have hsample := h ['x', '\n', 'y', '\n', 'w'] ['x', '\n', 'z', '\n', 'w']
    (samplePatch [⟨['w'], false⟩]) (samplePatch_wellFormed (by decide))
    (by decide) (by decide)
  revert hsample
  decide

end Zmax.Merge
