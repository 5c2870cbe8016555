/-
What a change makes of the word index.

A window is read instead of the text. Where both have a boundary, with the
same run of word clusters around it or one that is too long to be a word in
either, their words differ by what is in front of that place, which the
change leaves alone (`SameRun.words`). So the words of the new windows in
place of those of the old ones are the words of the changed text
(`Settled.words`), one window after the other.
-/
import Zmax.Core.Proofs.Builder
import Zmax.View.Proofs.WordIndex

namespace Zmax.WordIndex

open Script (oldLen newLen run)

variable {U : Unicode} {L X Y R : Rope} {u v u' v' : Rope}

-- == runs

/-- The run of word clusters that a text ends with. -/
def openWord (U : Unicode) (u : Rope) : List Tendril :=
  Clusters.openRun (isWord U) [] (graphemes U u)

/-- The run of word clusters that a text begins with. -/
def leadWord (U : Unicode) (v : Rope) : List Tendril :=
  (graphemes U v).takeWhile (isWord U)

/-- Between two parts of a text and two parts of another there is a
boundary in both, around which the run of word clusters is the same or in
both too long to be a word. -/
structure SameRun (U : Unicode) (u v u' v' : Rope) : Prop where
  left : U.isGraphemeBoundary (u ++ v) u.length = true
  right : U.isGraphemeBoundary (u' ++ v') u'.length = true
  run : openWord U u ++ leadWord U v = openWord U u' ++ leadWord U v'
    ∨ MAX_WORD_LEN < (openWord U u ++ leadWord U v).flatten.length
      ∧ MAX_WORD_LEN < (openWord U u' ++ leadWord U v').flatten.length

/-- What is left of a change that a window can reach. -/
def context (L : Rope) : Rope := L.drop (L.length - MAX_WORD_LEN)

/-- A window of a change from `X` to `Y` between `L` and `R` shows enough
of the text: among the chars left of the change there is a place around
which the words are as in the text, before the change and after it, and so
there is among those right of it. -/
structure Settled (U : Unicode) (L X Y R : Rope) : Prop where
  left : ∃ k, ∀ Z ∈ [X, Y],
    SameRun U (L.take (L.length - MAX_WORD_LEN) ++ (context L).take k)
      ((context L).drop k ++ Z ++ R.take MAX_WORD_LEN) ((context L).take k)
      ((context L).drop k ++ Z ++ R.take MAX_WORD_LEN)
  right : ∃ k, ∀ Z ∈ [X, Y],
    SameRun U (L ++ Z ++ (R.take MAX_WORD_LEN).take k)
      ((R.take MAX_WORD_LEN).drop k)
      (L ++ Z ++ (R.take MAX_WORD_LEN).take k)
      ((R.take MAX_WORD_LEN).drop k ++ R.drop MAX_WORD_LEN)

theorem keepWord_long {word : List Tendril}
    (h : MAX_WORD_LEN < word.flatten.length) : keepWord word = [] :=
  if_neg fun hle => Nat.not_lt_of_le hle.2 h

theorem SameRun.keep (h : SameRun U u v u' v') :
    keepWord (openWord U u ++ leadWord U v)
      = keepWord (openWord U u' ++ leadWord U v') := by
  rcases h.run with heq | ⟨hu, hu'⟩
  · rw [heq]
  · rw [keepWord_long hu, keepWord_long hu']

/-- The words of a text up to the run that it ends with. -/
def settledWords (U : Unicode) (u : Rope) : List Tendril :=
  Clusters.settled (isWord U) keepWord [] (graphemes U u)

/-- The words of a text behind the run that it begins with. -/
def laterWords (U : Unicode) (v : Rope) : List Tendril :=
  Clusters.later (isWord U) keepWord (graphemes U v)

theorem words_append (hU : Clusters.Lawful U.isGraphemeBoundary)
    (hbd : U.isGraphemeBoundary (u ++ v) u.length = true) :
    words U (u ++ v) = settledWords U u
      ++ keepWord (openWord U u ++ leadWord U v) ++ laterWords U v := by
  rw [words_eq]
  unfold graphemes
  rw [Clusters.clusters_append hU hbd, Clusters.collect_append]
  rfl

/-- The words of both texts differ by those in front of the place and
those behind it. -/
theorem SameRun.words (hU : Clusters.Lawful U.isGraphemeBoundary)
    (h : SameRun U u v u' v') (word : Tendril) :
    (words U (u ++ v)).count word + (settledWords U u').count word
        + (laterWords U v').count word
      = (words U (u' ++ v')).count word + (settledWords U u).count word
        + (laterWords U v).count word := by
  rw [words_append hU h.left, words_append hU h.right, h.keep]
  simp only [List.count_append]
  omega

/-- The words of the windows make the difference. -/
theorem Settled.words (hU : Clusters.Lawful U.isGraphemeBoundary)
    (h : Settled U L X Y R) :
    (words U (context L ++ Y ++ R.take MAX_WORD_LEN)
        ++ words U (L ++ X ++ R)).Perm
      (words U (context L ++ X ++ R.take MAX_WORD_LEN)
        ++ words U (L ++ Y ++ R)) := by
  refine List.perm_iff_count.mpr fun word => ?_
  obtain ⟨i, hleft⟩ := h.left
  obtain ⟨j, hright⟩ := h.right
  rw [List.count_append, List.count_append]
  have hL : L = L.take (L.length - MAX_WORD_LEN) ++ context L :=
    (List.take_append_drop _ L).symm
  have hwindow (Z : Rope) : (context L).take i ++ ((context L).drop i ++ Z
      ++ R.take MAX_WORD_LEN) = context L ++ Z ++ R.take MAX_WORD_LEN := by
    rw [← List.append_assoc, ← List.append_assoc, List.take_append_drop]
  have hcut (Z : Rope) : L.take (L.length - MAX_WORD_LEN)
      ++ (context L).take i ++ ((context L).drop i ++ Z
      ++ R.take MAX_WORD_LEN) = L ++ Z ++ R.take MAX_WORD_LEN := by
    rw [List.append_assoc, hwindow, ← List.append_assoc,
      ← List.append_assoc, ← hL]
  have hcut' (Z : Rope) : L ++ Z ++ (R.take MAX_WORD_LEN).take j
      ++ (R.take MAX_WORD_LEN).drop j = L ++ Z ++ R.take MAX_WORD_LEN := by
    rw [List.append_assoc, List.take_append_drop]
  have htext (Z : Rope) : L ++ Z ++ (R.take MAX_WORD_LEN).take j
      ++ ((R.take MAX_WORD_LEN).drop j ++ R.drop MAX_WORD_LEN)
      = L ++ Z ++ R := by
    rw [← List.append_assoc, hcut', List.append_assoc,
      List.take_append_drop]
  have hX := (hleft X (by simp)).words hU word
  have hY := (hleft Y (by simp)).words hU word
  have hX' := (hright X (by simp)).words hU word
  have hY' := (hright Y (by simp)).words hU word
  rw [hwindow, hcut] at hX hY
  rw [hcut', htext] at hX' hY'
  omega

-- == windows

theorem window_eq (L X R : Rope) :
    window (L ++ X ++ R) L.length (L.length + X.length)
      = .ok (context L ++ X ++ R.take MAX_WORD_LEN) := by
  have hlen : (L ++ X ++ R).length = L.length + X.length + R.length := by
    rw [List.length_append, List.length_append]
  have hcontext : (context L).length
      = L.length - (L.length - MAX_WORD_LEN) := List.length_drop
  unfold window
  rw [slice_of_le (by omega) (Nat.min_le_right _ _), List.append_assoc,
    List.drop_append_of_le_length (Nat.sub_le _ _)]
  have hstop : min (L.length + X.length + MAX_WORD_LEN)
      (L ++ (X ++ R)).length - (L.length - MAX_WORD_LEN)
      = (context L ++ X).length + min MAX_WORD_LEN R.length := by
    rw [← List.append_assoc, hlen, List.length_append, hcontext]
    omega
  have hpieces : L.drop (L.length - MAX_WORD_LEN) ++ (X ++ R)
      = context L ++ X ++ R := (List.append_assoc ..).symm
  rw [hstop, hpieces, List.take_length_add_append]
  congr 2
  rw [← List.take_take, List.take_length]

theorem context_append (L C : Rope) :
    context (L ++ C) = context (context L ++ C) := by
  have hlen : (context L).length = L.length - (L.length - MAX_WORD_LEN) :=
    List.length_drop
  have hL : L ++ C = L.take (L.length - MAX_WORD_LEN)
      ++ (context L ++ C) := by
    rw [← List.append_assoc]
    exact congrArg (· ++ C) (List.take_append_drop _ L).symm
  have htake : (L.take (L.length - MAX_WORD_LEN)).length
      = L.length - MAX_WORD_LEN := by
    rw [List.length_take]
    omega
  by_cases hshort : L.length ≤ MAX_WORD_LEN
  · have hsame : context L = L := by
      unfold context
      rw [Nat.sub_eq_zero_of_le hshort, List.drop_zero]
    rw [hsame]
  · unfold context at hlen hL ⊢
    conv_lhs => rw [hL]
    have hcut : (L.take (L.length - MAX_WORD_LEN)
        ++ (L.drop (L.length - MAX_WORD_LEN) ++ C)).length - MAX_WORD_LEN
        = (L.take (L.length - MAX_WORD_LEN)).length
          + ((L.drop (L.length - MAX_WORD_LEN) ++ C).length
            - MAX_WORD_LEN) := by
      rw [List.length_append, List.length_append, hlen, htake]
      omega
    rw [hcut, List.drop_length_add_append]

/-- The operations scanned are those in front, and a large `Retain` is
next, if any is. -/
theorem scanAhead_spec (operations : List Operation) (oldPos newPos : Nat) :
    ∃ pre rest, operations = pre ++ rest
      ∧ scanAhead operations oldPos newPos
        = (rest, oldPos + oldLen pre, newPos + newLen pre)
      ∧ ∀ operation ∈ rest.head?,
        ∃ n, operation = .retain n ∧ MAX_WORD_LEN < n := by
  induction operations generalizing oldPos newPos with
  | nil => exact ⟨[], [], rfl, rfl, nofun⟩
  | cons operation operations ih =>
      have hstep (oldPos' newPos' : Nat)
          (hold : oldPos' = oldPos + operation.old)
          (hnew : newPos' = newPos + operation.new)
          (hscan : scanAhead (operation :: operations) oldPos newPos
            = scanAhead operations oldPos' newPos') :
          ∃ pre rest, operation :: operations = pre ++ rest
            ∧ scanAhead (operation :: operations) oldPos newPos
              = (rest, oldPos + oldLen pre, newPos + newLen pre)
            ∧ ∀ operation ∈ rest.head?,
              ∃ n, operation = .retain n ∧ MAX_WORD_LEN < n := by
        obtain ⟨pre, rest, heq, hrest, hhead⟩ := ih oldPos' newPos'
        refine ⟨operation :: pre, rest, ?_, ?_, hhead⟩
        · rw [heq]
          rfl
        · rw [hscan, hrest, hold, hnew, Script.oldLen_cons,
            Script.newLen_cons, Nat.add_assoc, Nat.add_assoc]
      cases operation with
      | retain n =>
          by_cases hlong : MAX_WORD_LEN < n
          · refine ⟨[], .retain n :: operations, rfl, ?_, ?_⟩
            · exact if_pos hlong
            · intro operation hoperation
              cases hoperation
              exact ⟨n, rfl, hlong⟩
          · exact hstep _ _ rfl rfl (if_neg hlong)
      | insert s => exact hstep _ _ rfl rfl rfl
      | delete n => exact hstep _ _ rfl rfl rfl

/-- A large `Retain` shows the same text behind the change. -/
theorem take_run {operations : List Operation}
    (hlen : oldLen operations = R.length)
    (hhead : ∀ operation ∈ operations.head?,
      ∃ n, operation = .retain n ∧ MAX_WORD_LEN < n) :
    (run operations R).take MAX_WORD_LEN = R.take MAX_WORD_LEN := by
  cases operations with
  | nil => rfl
  | cons operation operations =>
      obtain ⟨n, rfl, hn⟩ := hhead operation rfl
      rw [Script.oldLen_cons, Script.Edit.old_retain] at hlen
      rw [Script.run_retain, List.take_append_of_le_length (by
        rw [List.length_take]
        omega), List.take_take, Nat.min_eq_left (Nat.le_of_lt hn)]

-- == runs

/-- A window shows enough of the text as it is when the changes in front
of it are made and those behind it are not. -/
def Span.Settled (U : Unicode) (oldText text : Rope) (span : Span) : Prop :=
  WordIndex.Settled U (text.take span.newStart)
    ((oldText.drop span.oldStart).take (span.oldPos - span.oldStart))
    ((text.drop span.newStart).take (span.newPos - span.newStart))
    (oldText.drop span.oldPos)

/-- The words of the new windows. -/
def newWords (U : Unicode) (text : Rope) (spans : List Span) :
    List Tendril :=
  spans.flatMap fun span =>
    match window text span.newStart span.newPos with
    | .ok newWindow => words U newWindow
    | .error _ => []

/-- How far the operations are read: the texts in front, where windows
reach back no further than what both have in common. -/
structure At (oldText text : Rope) (operations : List Operation)
    (Lold L R : Rope) : Prop where
  old : oldText = Lold ++ R
  new : text = L ++ run operations R
  len : oldLen operations = R.length
  context : context Lold = context L
    ∨ ∀ operation ∈ operations.head?,
      ∃ n, operation = .retain n ∧ MAX_WORD_LEN < n

variable {oldText text Lold : Rope} {operations : List Operation}
  {canceled : Nat → Bool} {inner : Inner}

theorem At.retain {n : Nat}
    (h : At oldText text (.retain n :: operations) Lold L R) :
    At oldText text operations (Lold ++ R.take n) (L ++ R.take n)
      (R.drop n) := by
  have hlen := h.len
  rw [Script.oldLen_cons, Script.Edit.old_retain] at hlen
  refine ⟨?_, ?_, ?_, .inl ?_⟩
  · rw [List.append_assoc, List.take_append_drop]
    exact h.old
  · rw [List.append_assoc]
    exact h.new
  · rw [List.length_drop]
    omega
  · rcases h.context with hcontext | hlong
    · rw [context_append, hcontext, ← context_append]
    · obtain ⟨m, hm, hlong⟩ := hlong _ rfl
      cases hm
      have htake : MAX_WORD_LEN ≤ (R.take n).length := by
        rw [List.length_take]
        omega
      have hdrop (L : Rope) : WordIndex.context (L ++ R.take n)
          = WordIndex.context (R.take n) := by
        unfold WordIndex.context
        rw [List.length_append, Nat.add_sub_assoc htake,
          List.drop_length_add_append]
      rw [hdrop, hdrop]

/-- A span of operations up to a large `Retain`, with its windows. -/
theorem At.span {pre rest : List Operation}
    (h : At oldText text (pre ++ rest) Lold L R)
    (hcontext : WordIndex.context Lold = WordIndex.context L)
    (hrest : ∀ operation ∈ rest.head?,
      ∃ n, operation = .retain n ∧ MAX_WORD_LEN < n) :
    ∃ X Y R', R = X ++ R' ∧ X.length = oldLen pre ∧ Y.length = newLen pre
      ∧ At oldText text rest (Lold ++ X) (L ++ Y) R'
      ∧ window oldText Lold.length (Lold.length + X.length)
        = .ok (WordIndex.context L ++ X ++ R'.take MAX_WORD_LEN)
      ∧ window text L.length (L.length + Y.length)
        = .ok (WordIndex.context L ++ Y ++ R'.take MAX_WORD_LEN) := by
  have hlen := h.len
  rw [Script.oldLen_append] at hlen
  have hR : R = R.take (oldLen pre) ++ R.drop (oldLen pre) :=
    (List.take_append_drop _ R).symm
  have hX : (R.take (oldLen pre)).length = oldLen pre := by
    rw [List.length_take]
    omega
  have hrun := Script.run_append rest (u := R.drop (oldLen pre)) hX.symm
  rw [← hR] at hrun
  have hR' : oldLen rest = (R.drop (oldLen pre)).length := by
    rw [List.length_drop]
    omega
  have hnew : text = L ++ run pre (R.take (oldLen pre))
      ++ run rest (R.drop (oldLen pre)) := by
    rw [h.new, hrun, List.append_assoc]
  have hold : oldText = Lold ++ R.take (oldLen pre)
      ++ R.drop (oldLen pre) := by
    rw [List.append_assoc, ← hR]
    exact h.old
  refine ⟨R.take (oldLen pre), run pre (R.take (oldLen pre)),
    R.drop (oldLen pre), hR, hX, Script.length_run_of_oldLen_eq hX.symm,
    ⟨hold, hnew, hR', .inr hrest⟩, ?_, ?_⟩
  · rw [hold, window_eq, hcontext]
  · rw [hnew, window_eq, take_run hR' hrest]

theorem changedSpans_cons {operation : Operation}
    (hretain : ∀ n, operation ≠ .retain n) (operations : List Operation)
    (oldPos newPos : Nat) :
    ∃ pre rest, operation :: operations = pre ++ rest
      ∧ rest.length ≤ operations.length
      ∧ changedSpans (operation :: operations) oldPos newPos
        = ⟨oldPos, newPos, oldPos + oldLen pre, newPos + newLen pre⟩
          :: changedSpans rest (oldPos + oldLen pre) (newPos + newLen pre)
      ∧ ∀ operation ∈ rest.head?,
        ∃ n, operation = .retain n ∧ MAX_WORD_LEN < n := by
  obtain ⟨pre, rest, heq, hscan, hhead⟩ := scanAhead_spec operations
    (oldPos + operation.old) (newPos + operation.new)
  refine ⟨operation :: pre, rest, ?_, ?_, ?_, hhead⟩
  · rw [heq]
    rfl
  · rw [heq, List.length_append]
    exact Nat.le_add_left _ _
  · rw [Script.oldLen_cons, Script.newLen_cons, ← Nat.add_assoc,
      ← Nat.add_assoc]
    cases operation with
    | retain n => exact absurd rfl (hretain n)
    | insert s =>
        rw [changedSpans]
        exact congrArg (fun ahead : List Operation × Nat × Nat =>
          (⟨oldPos, newPos, ahead.2.1, ahead.2.2⟩ : Span)
            :: changedSpans ahead.1 ahead.2.1 ahead.2.2) hscan
    | delete n =>
        rw [changedSpans]
        exact congrArg (fun ahead : List Operation × Nat × Nat =>
          (⟨oldPos, newPos, ahead.2.1, ahead.2.2⟩ : Span)
            :: changedSpans ahead.1 ahead.2.1 ahead.2.2) hscan

/-- The words of a new window for those of the old one. -/
theorem Counts.window (hU : Clusters.Lawful U.isGraphemeBoundary)
    (h : Counts inner (words U (L ++ X ++ R)))
    (hsettled : WordIndex.Settled U L X Y R)
    (hroom : ∀ word, (words U (L ++ X ++ R)).count word
      + (words U (context L ++ Y ++ R.take MAX_WORD_LEN)).count word
      ≤ COUNT_MAX) :
    ∃ inner', (words U (context L ++ X ++ R.take MAX_WORD_LEN)).foldlM
        Inner.remove ((words U (context L ++ Y
          ++ R.take MAX_WORD_LEN)).foldl Inner.insert inner) = .ok inner'
      ∧ Counts inner' (words U (L ++ Y ++ R)) := by
  refine Counts.removeAll ((h.insertAll _ fun word => ?_).perm
    (hsettled.words hU))
  have hword := hroom word
  rw [List.count_append]
  omega

/-- One window after the other, the index counts the words of the text as
it is changed so far. -/
theorem updateLoop_counts (hU : Clusters.Lawful U.isGraphemeBoundary)
    (hcanceled : ∀ n, canceled n = false)
    (h : At oldText text operations Lold L R)
    (hcounts : Counts inner (words U (L ++ R)))
    (hroom : ∀ word, (words U (L ++ R)).count word
      + (newWords U text (changedSpans operations Lold.length
        L.length)).count word ≤ COUNT_MAX)
    (hsettled : ∀ span ∈ changedSpans operations Lold.length L.length,
      span.Settled U oldText text) (sinceCheck asked : Nat) :
    ∃ inner', updateLoop U oldText text canceled
        (changedSpans operations Lold.length L.length) sinceCheck asked inner
          = .ok inner'
      ∧ Counts inner' (words U text) := by
  induction hn : operations.length using Nat.strongRecOn
    generalizing operations Lold L R inner sinceCheck asked with
  | ind n ih => ?_
  cases operations with
  | nil =>
      refine ⟨inner, ?_, ?_⟩
      · unfold changedSpans
        rfl
      · rw [h.new]
        exact hcounts
  | cons operation operations =>
      subst hn
      by_cases hretain : ∃ n, operation = .retain n
      · obtain ⟨n, rfl⟩ := hretain
        have hnext := h.retain
        have htake : (R.take n).length = n := by
          have hlen := h.len
          rw [Script.oldLen_cons, Script.Edit.old_retain] at hlen
          rw [List.length_take]
          omega
        have hspans : changedSpans (.retain n :: operations) Lold.length
            L.length = changedSpans operations (Lold ++ R.take n).length
              (L ++ R.take n).length := by
          rw [changedSpans, List.length_append, List.length_append, htake]
        have hsame : L ++ R.take n ++ R.drop n = L ++ R := by
          rw [List.append_assoc, List.take_append_drop]
        rw [hspans] at hroom hsettled ⊢
        rw [← hsame] at hroom hcounts
        exact ih _ (Nat.lt_succ_self _) hnext hcounts hroom hsettled
          sinceCheck asked rfl
      · obtain ⟨pre, rest, heq, hlen, hspans, hrest⟩ := changedSpans_cons
          (fun n hn => hretain ⟨n, hn⟩) operations Lold.length L.length
        have hcontext := h.context.resolve_right fun hlong => by
          obtain ⟨n, hn, -⟩ := hlong operation rfl
          exact hretain ⟨n, hn⟩
        rw [heq] at h
        obtain ⟨X, Y, R', rfl, hX, hY, hnext, hold, hnew⟩ :=
          h.span hcontext hrest
        rw [hspans, ← hX, ← hY] at hroom hsettled ⊢
        rw [← List.append_assoc] at hroom hcounts
        have hspan := hsettled _ List.mem_cons_self
        have hrooms : ∀ word, (words U (L ++ X ++ R')).count word
            + ((words U (context L ++ Y ++ R'.take MAX_WORD_LEN)).count word
              + (newWords U text (changedSpans rest (Lold ++ X).length
                (L ++ Y).length)).count word) ≤ COUNT_MAX := by
          intro word
          have hword := hroom word
          unfold newWords at hword ⊢
          rw [List.flatMap_cons, List.count_append] at hword
          dsimp only at hword
          rw [hnew] at hword
          rw [List.length_append, List.length_append]
          exact hword
        have hsettledNow : Settled U L X Y R' := by
          unfold Span.Settled at hspan
          dsimp only at hspan
          rw [Nat.add_sub_cancel_left, Nat.add_sub_cancel_left] at hspan
          have hL : text.take L.length = L := by
            rw [h.new, List.take_left]
          have hX : (oldText.drop Lold.length).take X.length = X := by
            rw [hnext.old, List.append_assoc, List.drop_left, List.take_left]
          have hY : (text.drop L.length).take Y.length = Y := by
            rw [hnext.new, List.append_assoc, List.drop_left, List.take_left]
          have hR : oldText.drop (Lold.length + X.length) = R' := by
            rw [hnext.old, ← List.length_append, List.drop_left]
          rwa [hL, hX, hY, hR] at hspan
        obtain ⟨mid, hupdate, hmid⟩ := hcounts.window hU hsettledNow
          fun word => by
            have hword := hrooms word
            omega
        have hless (word : Tendril) : (words U (L ++ Y ++ R')).count word
            ≤ (words U (L ++ X ++ R')).count word
              + (words U (context L ++ Y
                ++ R'.take MAX_WORD_LEN)).count word := by
          have hperm := (hsettledNow.words hU).count_eq word
          rw [List.count_append, List.count_append] at hperm
          omega
        have hrest := fun since asked => ih _ (Nat.lt_succ_of_le hlen)
          hnext hmid
          (fun word => by
            have hword := hrooms word
            have := hless word
            omega)
          (fun span hspan => hsettled span (List.mem_cons_of_mem _ (by
            rwa [List.length_append, List.length_append] at hspan)))
          since asked rfl
        rw [List.length_append, List.length_append] at hrest
        rw [updateLoop, hold, ok_bind, hnew, ok_bind]
        dsimp only
        rw [hupdate, ok_bind, hcanceled]
        split
        · exact hrest _ _
        · exact hrest _ _

/-- An index that counts the words of a text counts those of the changed
text after an update, if the windows show enough of both. -/
theorem update_document_law {U : Unicode} {inner : Inner}
    {oldText text : Rope} {changes : ChangeSet} {canceled : Nat → Bool}
    (hU : Clusters.Lawful U.isGraphemeBoundary)
    (hchanges : changes.Carries oldText text)
    (hcounts : Counts inner (words U oldText))
    (hcanceled : ∀ n, canceled n = false)
    (hroom : ∀ word, (words U oldText).count word
      + (newWords U text (changedSpans changes.changes 0 0)).count word
        ≤ COUNT_MAX)
    (hsettled : ∀ span ∈ changedSpans changes.changes 0 0,
      span.Settled U oldText text) :
    ∃ inner', updateDocument U inner oldText text changes canceled
        = .ok inner'
      ∧ Counts inner' (words U text) := by
  rcases hchanges.valid with hformed | hidentity
  · have hstart : At oldText text changes.changes [] [] oldText :=
      ⟨rfl, hchanges.run.symm, hformed.old.trans hchanges.len, .inl rfl⟩
    exact updateLoop_counts hU hcanceled hstart hcounts hroom hsettled 0 0
  · have hsame : oldText = text := by
      rw [← hchanges.run, hidentity.1]
      rfl
    refine ⟨inner, ?_, hsame ▸ hcounts⟩
    unfold updateDocument
    rw [hidentity.1, changedSpans]
    rfl

instance (u v u' v' : Rope) : Decidable (SameRun U u v u' v') :=
  decidable_of_iff
    (U.isGraphemeBoundary (u ++ v) u.length = true
      ∧ U.isGraphemeBoundary (u' ++ v') u'.length = true
      ∧ (openWord U u ++ leadWord U v = openWord U u' ++ leadWord U v'
        ∨ MAX_WORD_LEN < (openWord U u ++ leadWord U v).flatten.length
          ∧ MAX_WORD_LEN
            < (openWord U u' ++ leadWord U v').flatten.length))
    ⟨fun h => ⟨h.1, h.2.1, h.2.2⟩, fun h => ⟨h.left, h.right, h.run⟩⟩

theorem lawful_ascii : Clusters.Lawful Unicode.ascii.isGraphemeBoundary :=
  ⟨fun _ _ _ _ => rfl, fun _ _ _ _ _ _ => rfl⟩

/-- One word for another. -/
def edited : ChangeSet :=
  ⟨[.retain 4, .insert "big ".toList, .delete 4, .retain 5], 13, 13⟩

theorem update_document_law_edited :
    ∃ inner', updateDocument .ascii
        (addDocument .ascii ⟨[]⟩ "one two three".toList fun _ => false)
        "one two three".toList "one big three".toList edited
        (fun _ => false) = .ok inner'
      ∧ Counts inner' (words .ascii "one big three".toList) := by
  have hroom : (words .ascii "one two three".toList).length
      + (newWords .ascii "one big three".toList
        (changedSpans edited.changes 0 0)).length ≤ COUNT_MAX := by
    decide +kernel
  refine update_document_law lawful_ascii
    ⟨.inl ⟨rfl, rfl, by decide⟩, rfl, rfl⟩ (addDocument_counts
      (fun _ => rfl) fun word => Nat.le_trans List.count_le_length ?_)
    (fun _ => rfl) (fun word => Nat.le_trans (Nat.add_le_add
      List.count_le_length List.count_le_length) hroom) fun span hspan => ?_
  · exact Nat.le_trans (Nat.le_add_right _ _) hroom
  · have hspans : changedSpans edited.changes 0 0 = [⟨4, 4, 13, 13⟩] := by
      decide +kernel
    rw [hspans] at hspan
    obtain rfl := List.mem_singleton.mp hspan
    exact ⟨⟨0, by decide⟩, 0, by decide⟩

/-- A run of 51 word chars is no word, but the window of the change behind
it shows 50 of them, which are one. -/
def longText (rest : String) : Rope :=
  List.replicate 51 'a' ++ rest.toList

def shortened : ChangeSet := ⟨[.retain 51, .delete 1, .retain 1], 53, 52⟩

theorem not_update_document_law_long :
    shortened.Carries (longText "b ") (longText " ")
      ∧ Counts ⟨[]⟩ (words .ascii (longText "b "))
      ∧ ∃ inner', updateDocument .ascii ⟨[]⟩ (longText "b ") (longText " ")
          shortened (fun _ => false) = .ok inner'
        ∧ ¬ Counts inner' (words .ascii (longText " ")) := by
  have hold : words .ascii (longText "b ") = [] := by decide
  have hnew : words .ascii (longText " ") = [] := by decide
  refine ⟨⟨.inl ⟨rfl, rfl, by decide⟩, rfl, rfl⟩, ?_,
    ⟨[(List.replicate 50 'a', 1)]⟩, by decide +kernel, fun h => ?_⟩
  · rw [hold]
    exact fun _ => rfl
  · rw [hnew] at h
    cases h (List.replicate 50 'a')

end Zmax.WordIndex
