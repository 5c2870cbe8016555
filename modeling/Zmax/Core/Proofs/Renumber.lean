/-
What the numbers of the revisions name after a commit.

A trim renumbers the revisions: the ones it keeps move down by as many
places as it drops, and the root stands for the text that the oldest of
them starts from. Whoever remembers a number from before the commit finds
`renamed` under it.
-/
import Zmax.Core.Proofs.Timeline

namespace Zmax

variable {R : Transaction → Rope → Rope → Prop} {clock : Clock}

namespace History

variable {h : History}

/-- How many revisions the next commit drops. -/
def surplus (h : History) (undoLevels : Nat) : Nat :=
  let max := h.maxRevisions.getD undoLevels
  if max = 0 then 0 else h.revisions.length - max

/-- The revision that the oldest one kept starts from; with no other kept
that is the current one. -/
def survivorParent (h : History) (drop : Nat) : Nat :=
  match h.revisions[drop + 1]? with
  | some oldest => oldest.parent
  | none => h.current

theorem length_push (v : Revision) (tx inversion : Transaction)
    (timestamp : Instant) :
    (h.push v tx inversion timestamp).revisions.length
      = h.revisions.length + 1 := by
  unfold push
  rw [List.length_append, List.length_set, List.length_singleton]

theorem dropCount_push (hcur : h.current < h.revisions.length)
    (v : Revision) (tx inversion : Transaction) (timestamp : Instant)
    (undoLevels : Nat) :
    (h.push v tx inversion timestamp).dropCount undoLevels
      = h.surplus undoLevels := by
  unfold dropCount surplus
  rw [length_push]
  show (if h.maxRevisions.getD undoLevels = 0
      ∨ h.revisions.length + 1 - 1 ≤ h.maxRevisions.getD undoLevels then 0
    else min (h.revisions.length + 1 - 1 - h.maxRevisions.getD undoLevels)
      (h.revisions.length - 1)) = _
  dsimp only
  split
  · next hnone =>
      split
      · rfl
      · omega
  · next hsome =>
      rw [if_neg fun h0 => hsome (.inl h0)]
      omega

/-- At least the revision that is committed is kept. -/
theorem surplus_lt (hcur : h.current < h.revisions.length)
    (undoLevels : Nat) : h.surplus undoLevels < h.revisions.length := by
  unfold surplus
  dsimp only
  split <;> omega

end History

namespace Timeline

/-- The text that a number names after a commit. -/
def renamed (s : Timeline) (undoLevels : Nat) (text : Rope) :
    Nat → Option Rope
  | 0 => some (textAt s.recorded
      (s.history.survivorParent (s.history.surplus undoLevels)))
  | number + 1 =>
      (s.recorded ++ [text])[number + 1 + s.history.surplus undoLevels]?

/-- The oldest revision that a trim keeps after a push. -/
private theorem oldest_push {h : History} {texts : List Rope}
    (hr : h.Recorded R texts) {v : Revision}
    (hv : h.revisions[h.current]? = some v) (tx inversion : Transaction)
    (timestamp : Instant) {drop : Nat} (hdrop : drop < h.revisions.length) :
    ∃ oldest, (h.push v tx inversion timestamp).revisions[drop + 1]?
        = some oldest
      ∧ oldest.parent = h.survivorParent drop
      ∧ oldest.parent < texts.length := by
  have hlen := hr.length
  have hcur := hr.current
  obtain ⟨oldest, -, hold⟩ :=
    @History.index_of_lt (h.push v tx inversion timestamp) (drop + 1) (by
      rw [History.length_push]
      omega)
  refine ⟨oldest, hold, ?_⟩
  unfold History.survivorParent
  have hkept : ∀ w, h.revisions[drop + 1]? = some w →
      w.parent = (match h.revisions[drop + 1]? with
        | some oldest => oldest.parent
        | none => h.current) ∧ w.parent < texts.length := by
    intro w hw
    have hlt := hr.tree.parent_lt _ w hw (Nat.succ_pos drop)
    have hbound := (List.getElem?_eq_some_iff.mp hw).1
    rw [hw]
    exact ⟨rfl, by omega⟩
  rcases History.getElem?_push hold with
    ⟨hnew, rfl⟩ | ⟨hcurrent, rfl⟩ | ⟨-, hw⟩
  · -- only the new revision is kept
    rw [List.getElem?_eq_none (by omega)]
    exact ⟨rfl, by rw [hlen]; exact hcur⟩
  · rw [← hcurrent] at hv
    exact hkept v hv
  · exact hkept oldest hw

/-- After a commit every number names the text that `renamed` says. -/
theorem Sound.recorded_commit {s s' : Timeline} (hs : Sound R s)
    {undoLevels : Nat} {tx : Transaction} {selection : Selection}
    {now : Instant}
    (hx : exec clock s (.commit undoLevels tx selection now) = .ok s')
    (number : Nat) :
    s'.recorded[number]? = s.renamed undoLevels s'.text number := by
  have hcur := hs.recorded.current
  rw [exec] at hx
  obtain ⟨history, -, hx⟩ := bind_eq_ok.mp hx
  obtain ⟨⟨b, text⟩, -, hx⟩ := bind_eq_ok.mp hx
  obtain ⟨untrimmed, huntrimmed, hx⟩ := bind_eq_ok.mp hx
  injection hx with hx
  subst hx
  dsimp only
  obtain ⟨v, inversion, hv, rfl⟩ : ∃ v inversion,
      s.history.revisions[s.history.current]? = some v
        ∧ untrimmed = s.history.push v tx inversion now := by
    obtain ⟨inversion, hinv⟩ : ∃ inversion,
        tx.invert s.text = .ok inversion := by
      unfold History.commitRevisionAtTimestamp at huntrimmed
      obtain ⟨inversion, hinv, -⟩ := bind_eq_ok.mp huntrimmed
      exact ⟨inversion, hinv⟩
    obtain ⟨v, hv, hcommit⟩ :=
      History.commit_eq hcur ⟨s.text, selection⟩ hinv 0 now
    rw [hcommit] at huntrimmed
    -- no limit: nothing is dropped
    unfold History.trimToUndoLevels at huntrimmed
    have hmax : (s.history.push v tx (inversion.withSelection selection)
        now).maxRevisions = none := hs.uncapped
    rw [hmax] at huntrimmed
    injection huntrimmed with huntrimmed
    exact ⟨v, _, hv, huntrimmed.symm⟩
  unfold trimTexts
  dsimp only
  rw [History.dropCount_push hcur]
  obtain ⟨oldest, hold, hparent, hlt⟩ := oldest_push hs.recorded hv tx
    inversion now (History.surplus_lt hcur undoLevels)
  rw [hold]
  dsimp only
  unfold History.keptTexts renamed
  cases number with
  | zero =>
      rw [List.getElem?_cons_zero, textAt_append_left _ hlt, hparent]
  | succ number =>
      rw [List.getElem?_cons_succ, List.getElem?_drop]
      dsimp only
      rw [show s.history.surplus undoLevels + 1 + number
        = number + 1 + s.history.surplus undoLevels from by omega]

/-- A commit that drops nothing renames nothing. -/
theorem renamed_of_zero {s : Timeline} (hs : Sound R s) {undoLevels : Nat}
    (h0 : s.history.surplus undoLevels = 0) (text : Rope) {number : Nat}
    (hlt : number < s.recorded.length) :
    s.renamed undoLevels text number = some (textAt s.recorded number) := by
  have hlen := hs.recorded.length
  cases number with
  | zero =>
      unfold renamed
      rw [h0]
      have hparent : s.history.survivorParent 0 = 0 := by
        unfold History.survivorParent
        have hcur := hs.recorded.current
        cases hv : s.history.revisions[0 + 1]? with
        | none =>
            have hshort := List.getElem?_eq_none_iff.mp hv
            dsimp only
            omega
        | some v =>
            have hp := hs.recorded.tree.parent_lt 1 v hv Nat.zero_lt_one
            dsimp only
            omega
      rw [hparent]
  | succ number =>
      unfold renamed
      dsimp only
      rw [h0, Nat.add_zero, List.getElem?_append_left hlt]
      exact getElem?_eq_textAt hlt

end Timeline

end Zmax
