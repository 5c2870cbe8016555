/-
What the word index counts.

The words of a text are collected of the runs of its word clusters
(`words_eq`). An index counts the words of a list (`Counts`): inserting
one puts it in front of the list, removing takes one from the front, and
the order of the list does not matter.
-/
import Mathlib.Data.List.Perm.Basic
import Zmax.View.WordIndex

namespace Zmax.WordIndex

variable {U : Unicode} {text : Rope} {inner : Inner}
  {word : Tendril} {ws ws' : List Tendril}

-- == words

/-- The word that a run of clusters is, if it is one. -/
def keepWord (run : List Tendril) : List Tendril :=
  if MIN_WORD_GRAPHEMES ≤ run.length ∧ run.flatten.length ≤ MAX_WORD_LEN then
    [run.flatten]
  else []

theorem qualify_eq {before rest : Tendril} {run : List Tendril}
    {start charLen : Nat} (htext : text = before ++ run.flatten ++ rest)
    (hrun : run ≠ [] →
      start = before.length ∧ charLen = run.flatten.length) :
    (qualify text start (before.length + run.flatten.length) charLen
      run.length).toList = keepWord run := by
  unfold qualify keepWord
  by_cases hnil : run = []
  · subst hnil
    rfl
  · obtain ⟨rfl, rfl⟩ := hrun hnil
    rw [htext, Nat.add_sub_cancel_left, List.append_assoc,
      List.drop_left, List.take_left]
    split <;> rfl

theorem wordsLoop_eq {before : Tendril} {run gs : List Tendril}
    {start charLen : Nat}
    (htext : text = before ++ run.flatten ++ gs.flatten)
    (hrun : run ≠ [] →
      start = before.length ∧ charLen = run.flatten.length) :
    wordsLoop U text gs (before.length + run.flatten.length) start charLen
      run.length = Clusters.collect (isWord U) keepWord run gs := by
  induction gs generalizing before run start charLen with
  | nil =>
      have hlen : text.length = before.length + run.flatten.length := by
        rw [htext, List.flatten_nil, List.append_nil, List.length_append]
      unfold wordsLoop
      rw [hlen]
      exact qualify_eq htext hrun
  | cons g gs ih =>
      unfold wordsLoop Clusters.collect
      dsimp only
      by_cases hword : isWord U g = true
      · rw [if_pos hword, if_pos hword]
        have hnext : before.length + run.flatten.length + g.length
            = before.length + (run ++ [g]).flatten.length := by
          simp [Nat.add_assoc]
        have hrest : text = before ++ (run ++ [g]).flatten ++ gs.flatten := by
          rw [htext]
          simp
        rw [hnext]
        by_cases hnil : run = []
        · subst hnil
          exact ih hrest fun _ => ⟨rfl, by simp⟩
        · obtain ⟨rfl, rfl⟩ := hrun hnil
          rw [if_neg (mt List.length_eq_zero_iff.mp hnil)]
          have hlen : run.length + 1 = (run ++ [g]).length := by simp
          rw [hlen]
          exact ih hrest fun _ => ⟨rfl, by simp⟩
      · rw [if_neg hword, if_neg hword]
        have hnext : before.length + run.flatten.length + g.length
            = (before ++ run.flatten ++ g).length
              + ([] : List Tendril).flatten.length := by
          simp [Nat.add_assoc]
        have hrest := @ih (before ++ run.flatten ++ g) [] start charLen
          (by rw [htext]; simp) (fun h => absurd rfl h)
        rw [← hnext] at hrest
        by_cases hnil : run = []
        · subst hnil
          rw [if_neg (by simp)]
          exact hrest
        · rw [if_pos (mt List.length_eq_zero_iff.mp hnil),
            qualify_eq htext hrun]
          exact congrArg (keepWord run ++ ·) hrest

theorem words_eq (U : Unicode) (text : Rope) : words U text
    = Clusters.collect (isWord U) keepWord [] (graphemes U text) := by
  refine @wordsLoop_eq U text [] [] (graphemes U text) 0 0 ?_
    (fun h => absurd rfl h)
  exact (Clusters.flatten_cut 0 text).symm

-- == index

/-- The index holds each word of a list, with how often it is there. -/
def Counts (inner : Inner) (ws : List Tendril) : Prop :=
  ∀ word, inner.words.get word
    = if ws.count word = 0 then none else some (ws.count word)

theorem Counts.perm (h : Counts inner ws) (hperm : ws.Perm ws') :
    Counts inner ws' := by
  intro word
  rw [h word, hperm.count_eq word]

theorem Counts.insert (h : Counts inner ws)
    (hroom : ws.count word < COUNT_MAX) :
    Counts (inner.insert word) (word :: ws) := by
  intro other
  have hget : (inner.insert word).words
      = inner.words.insert word (ws.count word + 1) := by
    unfold Inner.insert
    rw [h word]
    by_cases hzero : ws.count word = 0
    · rw [if_pos hzero, hzero]
    · rw [if_neg hzero]
      dsimp only
      rw [Nat.min_eq_left hroom]
  rw [hget]
  by_cases hother : other = word
  · subst hother
    rw [Table.get_insert_self, List.count_cons_self,
      if_neg (Nat.succ_ne_zero _)]
  · rw [Table.get_insert_ne hother, h other,
      List.count_cons_of_ne (Ne.symm hother)]

theorem Counts.remove (h : Counts inner (word :: ws)) :
    ∃ inner', inner.remove word = .ok inner' ∧ Counts inner' ws := by
  have hword := h word
  rw [List.count_cons_self, if_neg (Nat.succ_ne_zero _)] at hword
  have hrest : ∀ other, other ≠ word → inner.words.get other
      = if ws.count other = 0 then none else some (ws.count other) := by
    intro other hother
    rw [h other, List.count_cons_of_ne (Ne.symm hother)]
  cases hcount : ws.count word with
  | zero =>
      rw [hcount] at hword
      refine ⟨⟨inner.words.erase word⟩, ?_, fun other => ?_⟩
      · unfold Inner.remove
        rw [hword]
        rfl
      · by_cases hother : other = word
        · subst hother
          rw [Table.get_erase_self, if_pos hcount]
        · rw [Table.get_erase_ne hother, hrest other hother]
  | succ n =>
      rw [hcount] at hword
      refine ⟨⟨inner.words.insert word (n + 1)⟩, ?_, fun other => ?_⟩
      · unfold Inner.remove
        rw [hword]
        show (do
          let n ← checkedSub (n + 1 + 1) 1
          return (⟨inner.words.insert word n⟩ : Inner)) = _
        rw [checkedSub_of_le (Nat.le_add_left 1 _)]
        rfl
      · by_cases hother : other = word
        · subst hother
          rw [Table.get_insert_self, hcount, if_neg (Nat.succ_ne_zero n)]
        · rw [Table.get_insert_ne hother, hrest other hother]

theorem Counts.insertAll (h : Counts inner ws) (news : List Tendril)
    (hroom : ∀ word, (news ++ ws).count word ≤ COUNT_MAX) :
    Counts (news.foldl Inner.insert inner) (news ++ ws) := by
  induction news generalizing inner ws with
  | nil => exact h
  | cons word news ih =>
      have hperm : (news ++ word :: ws).Perm (word :: news ++ ws) :=
        List.perm_middle
      have hone : ws.count word < COUNT_MAX := by
        have hle := hroom word
        rw [List.cons_append, List.count_cons_self, List.count_append] at hle
        omega
      refine (ih (h.insert hone) fun other => ?_).perm hperm
      rw [hperm.count_eq]
      exact hroom other

theorem Counts.removeAll {olds : List Tendril}
    (h : Counts inner (olds ++ ws)) :
    ∃ inner', olds.foldlM Inner.remove inner = .ok inner'
      ∧ Counts inner' ws := by
  induction olds generalizing inner with
  | nil => exact ⟨inner, rfl, h⟩
  | cons word olds ih =>
      obtain ⟨mid, hremove, hmid⟩ := h.remove
      obtain ⟨inner', hrest, hcounts⟩ := ih hmid
      refine ⟨inner', ?_, hcounts⟩
      rw [List.foldlM_cons, hremove]
      exact hrest

/-- A document is added to an empty index with all its words, if none is
there too often. -/
theorem addDocument_counts {canceled : Nat → Bool}
    (hcanceled : ∀ n, canceled n = false)
    (hroom : ∀ word, (words U text).count word ≤ COUNT_MAX) :
    Counts (addDocument U ⟨[]⟩ text canceled) (words U text) := by
  have hloop (ws : List Tendril) (i : Nat) (inner : Inner) :
      addLoop canceled ws i inner = ws.foldl Inner.insert inner := by
    induction ws generalizing i inner with
    | nil => rfl
    | cons word ws ih =>
        unfold addLoop
        rw [if_neg fun h => Bool.false_ne_true
          ((hcanceled _).symm.trans h.2)]
        exact ih _ _
  have hempty : Counts ⟨[]⟩ [] := fun _ => rfl
  have hall := hempty.insertAll (words U text) (by simpa using hroom)
  rw [List.append_nil] at hall
  unfold addDocument
  rw [hloop]
  exact hall

end Zmax.WordIndex
