/-
What commits, merges and trims do to a recorded history.

A commit without a cap pushes a leaf (`commit_spec`). A merge moves the
current revision to the new text (`merge_spec`), which keeps the history
recorded if nothing hangs on the old one. A trim cuts off the oldest
revisions and hangs their children on the root (`trim_spec`); whether
the history is recorded afterwards is a question of which texts these
children start from (`trim_recorded_iff`).
-/
import Zmax.Core.Proofs.Revisions

namespace Zmax

open VersionTree

namespace History

variable {R : Transaction → Rope → Rope → Prop} {h : History}
  {texts : List Rope}

-- == commits

theorem nonZero_of_pos {n : Nat} (h : 0 < n) : nonZero n = some n := by
  rw [nonZero, if_neg (by omega)]

/-- The history with a revision pushed on the current one, `v`. -/
def push (h : History) (v : Revision) (transaction inversion : Transaction)
    (timestamp : Instant) : History :=
  { h with
    revisions :=
      h.revisions.set h.current
        { v with lastChild := some h.revisions.length }
      ++ [⟨h.current, none, transaction, inversion, timestamp⟩]
    current := h.revisions.length }

/-- A commit pushes a revision with the inverted transaction, and
trims. -/
theorem commit_eq (hcur : h.current < h.revisions.length)
    {tx inversion : Transaction} (original : State)
    (hinv : tx.invert original.doc = .ok inversion) (undoLevels : Nat)
    (timestamp : Instant) :
    ∃ v, h.revisions[h.current]? = some v ∧
      h.commitRevisionAtTimestamp undoLevels tx original timestamp
        = (h.push v tx (inversion.withSelection original.selection)
            timestamp).trimToUndoLevels undoLevels := by
  obtain ⟨v, hi, hv⟩ := index_of_lt hcur
  refine ⟨v, hv, ?_⟩
  unfold commitRevisionAtTimestamp
  rw [hinv, ok_bind, hi, ok_bind]
  simp only [nonZero_of_pos (Nat.zero_lt_of_lt hcur)]
  rfl

/-- The revisions after a push: the new one, the one it hangs on, and
the others. -/
theorem getElem?_push {v : Revision} {tx inversion : Transaction}
    {timestamp : Instant} {i : Nat} {w : Revision}
    (hw : (h.push v tx inversion timestamp).revisions[i]? = some w) :
    (i = h.revisions.length
        ∧ w = ⟨h.current, none, tx, inversion, timestamp⟩)
      ∨ (i = h.current
        ∧ w = { v with lastChild := some h.revisions.length })
      ∨ (i ≠ h.current ∧ h.revisions[i]? = some w) := by
  unfold push at hw
  dsimp only at hw
  rcases Nat.lt_or_ge i h.revisions.length with hlt | hge
  · rw [List.getElem?_append_left (by rw [List.length_set]; exact hlt)] at hw
    by_cases hi : h.current = i
    · subst hi
      rw [List.getElem?_set_self hlt] at hw
      injection hw with hw
      exact .inr (.inl ⟨rfl, hw.symm⟩)
    · rw [List.getElem?_set_ne hi] at hw
      exact .inr (.inr ⟨fun h => hi h.symm, hw⟩)
  · rw [List.getElem?_append_right (by rw [List.length_set]; exact hge),
      List.length_set, List.getElem?_singleton] at hw
    split at hw
    · injection hw with hw
      exact .inl ⟨by omega, hw.symm⟩
    · cases hw

/-- Pushing a revision whose transaction leads from the current text to
a new one, and back, records the new text. -/
theorem Recorded.push (hr : h.Recorded R texts) {v : Revision}
    (hv : h.revisions[h.current]? = some v) {tx inversion : Transaction}
    {text : Rope} (htx : R tx (textAt texts h.current) text)
    (hinv : R inversion text (textAt texts h.current))
    (timestamp : Instant) :
    (h.push v tx inversion timestamp).Recorded R (texts ++ [text]) := by
  have hcur := hr.current
  have hlen := hr.length
  have hcases := fun {i w} =>
    @getElem?_push h v tx inversion timestamp i w
  refine ⟨?_, ?_, ?_, ?_⟩
  · -- the last child of the current revision does not matter to the tree
    have hset : Coherent Revision.parent Revision.transaction
        Revision.inversion R (h.revisions.set h.current
          { v with lastChild := some h.revisions.length })
        (textAt texts) := by
      refine hr.tree.congr fun i w hw => ?_
      by_cases hi : h.current = i
      · subst hi
        rw [List.getElem?_set_self hcur] at hw
        injection hw with hw
        exact ⟨v, hv, by rw [← hw]; exact ⟨rfl, rfl, rfl⟩⟩
      · rw [List.getElem?_set_ne hi] at hw
        exact ⟨w, hw, rfl, rfl, rfl⟩
    refine hset.push (fun i hi => ?_) ?_ ?_ ?_
    · rw [List.length_set, ← hlen] at hi
      exact textAt_append_left _ hi
    · rw [List.length_set]
      exact hcur
    · rw [List.length_set, ← hlen, textAt_append_length]
      exact htx
    · rw [List.length_set, ← hlen, textAt_append_length]
      exact hinv
  · unfold History.push
    simp [hlen]
  · unfold History.push
    simp
  · intro i w c hw hc
    -- an old child is still there, with its parent
    have hold : ∀ {i c}, (∃ w, h.revisions[c]? = some w ∧ w.parent = i
          ∧ 0 < c) →
        ∃ w, (h.push v tx inversion timestamp).revisions[c]? = some w
          ∧ w.parent = i ∧ 0 < c := by
      rintro i c ⟨w, hw, hp, hpos⟩
      have hlt := (List.getElem?_eq_some_iff.mp hw).1
      unfold History.push
      dsimp only
      rw [List.getElem?_append_left (by rw [List.length_set]; exact hlt)]
      by_cases hci : h.current = c
      · subst hci
        rw [List.getElem?_set_self hlt]
        rw [hv] at hw
        injection hw with hw
        exact ⟨_, rfl, by rw [← hp, ← hw], hpos⟩
      · rw [List.getElem?_set_ne hci]
        exact ⟨w, hw, hp, hpos⟩
    rcases hcases hw with ⟨-, rfl⟩ | ⟨rfl, rfl⟩ | ⟨-, hw⟩
    · cases hc
    · injection hc with hc
      subst hc
      refine ⟨⟨h.current, none, tx, inversion, timestamp⟩, ?_, rfl,
        Nat.zero_lt_of_lt hcur⟩
      unfold History.push
      rw [List.getElem?_append_right (by rw [List.length_set]),
        List.length_set, Nat.sub_self]
      rfl
    · exact hold (hr.child i w c hw hc)

-- == trims

/-- How many revisions a trim drops. -/
def dropCount (h : History) (undoLevels : Nat) : Nat :=
  let max := h.maxRevisions.getD undoLevels
  if max = 0 ∨ h.revisions.length - 1 ≤ max then 0
  else min (h.revisions.length - 1 - max) (h.current - 1)

/-- A trim leaves the current revision and all after it. -/
theorem dropCount_lt (h : History) (undoLevels : Nat)
    (hd : 0 < h.dropCount undoLevels) : h.dropCount undoLevels < h.current := by
  unfold dropCount at hd ⊢
  dsimp only at hd ⊢
  split at hd
  · omega
  · next hc =>
      rw [if_neg hc]
      omega

/-- What a trim leaves of a revision. -/
def shifted (d : Nat) (v : Revision) : Revision :=
  { v with parent := v.parent - d, lastChild := v.lastChild.map (· - d) }

/-- What a trim that drops `d` revisions leaves of a history. -/
def trimmed (h : History) (d : Nat) : History :=
  { h with
    revisions :=
      match h.revisions with
      | [] => []
      | root :: rest =>
          { root with lastChild := some 1 } :: (rest.drop d).map (shifted d)
    current := h.current - d }

/-- A trim drops `dropCount` revisions, or nothing. -/
theorem trim_eq (hr : h.Recorded R texts) (undoLevels : Nat) :
    h.trimToUndoLevels undoLevels
      = .ok (if h.dropCount undoLevels = 0 then h
        else h.trimmed (h.dropCount undoLevels)) := by
  have hlen : 1 ≤ h.revisions.length := Nat.zero_lt_of_lt hr.current
  unfold trimToUndoLevels
  dsimp only
  by_cases hmax : h.maxRevisions.getD undoLevels = 0
  · have h0 : h.dropCount undoLevels = 0 := if_pos (.inl hmax)
    rw [if_pos hmax, if_pos h0]
    rfl
  rw [if_neg hmax, checkedSub_of_le hlen, ok_bind]
  by_cases hreal : h.revisions.length - 1 ≤ h.maxRevisions.getD undoLevels
  · have h0 : h.dropCount undoLevels = 0 := if_pos (.inr hreal)
    rw [if_pos hreal, if_pos h0]
    rfl
  have hd : h.dropCount undoLevels = min (h.revisions.length - 1
      - h.maxRevisions.getD undoLevels) (h.current - 1) :=
    if_neg (not_or.mpr ⟨hmax, hreal⟩)
  rw [if_neg hreal, ← hd]
  generalize h.dropCount undoLevels = d
  by_cases h0 : d = 0
  · rw [if_pos h0, if_pos h0]
    rfl
  rw [if_neg h0, if_neg h0]
  unfold trimmed
  cases hrev : h.revisions with
  | nil =>
      rw [hrev] at hlen
      exact absurd hlen (by simp)
  | cons root rest =>
      -- the children of the kept revisions are kept
      have hkept : (rest.drop d).mapM (reindexed d)
          = .ok ((rest.drop d).map (shifted d)) := by
        refine mapM_eq_ok.mpr (List.forall₂_map_right_iff.mpr ?_)
        refine List.forall₂_same.mpr fun v hv => ?_
        obtain ⟨k, hk⟩ := List.mem_iff_getElem?.mp hv
        rw [List.getElem?_drop] at hk
        have hv' : h.revisions[d + k + 1]? = some v := by
          rw [hrev, List.getElem?_cons_succ]
          exact hk
        unfold reindexed shifted
        cases hc : v.lastChild with
        | none => rfl
        | some c =>
            obtain ⟨w, hw, hp, hpos⟩ := hr.child _ v c hv' hc
            have hlt := hr.tree.parent_lt c w hw hpos
            dsimp only
            rw [checkedSub_of_le (by omega), ok_bind,
              nonZero_of_pos (by omega)]
            rfl
      dsimp only
      rw [hkept, ok_bind, nonZero_of_pos Nat.zero_lt_one]
      rfl

/-- The revisions after a trim, the root excepted. -/
theorem getElem?_trimmed (h : History) (d : Nat) {i : Nat} (hi : 0 < i) :
    (h.trimmed d).revisions[i]?
      = h.revisions[i + d]?.map (shifted d) := by
  obtain ⟨k, rfl⟩ := Nat.exists_eq_add_of_lt hi
  unfold trimmed
  cases h.revisions with
  | nil => rfl
  | cons root rest =>
      dsimp only
      rw [Nat.zero_add, List.getElem?_cons_succ, List.getElem?_map,
        List.getElem?_drop, show k + 1 + d = d + k + 1 from by omega,
        List.getElem?_cons_succ]

/-- The oldest revision kept loses its parent, or hangs on the root. -/
theorem Recorded.oldest (hr : h.Recorded R texts) {d : Nat}
    (hd : d < h.current) :
    ∃ v, h.revisions[d + 1]? = some v ∧ v.parent ≤ d := by
  obtain ⟨v, -, hv⟩ := @index_of_lt h (d + 1) (by
    have := hr.current
    omega)
  have := hr.tree.parent_lt (d + 1) v hv (Nat.succ_pos d)
  exact ⟨v, hv, by omega⟩

/-- Every last child of a trimmed history is still a child. -/
theorem Recorded.child_trimmed (hr : h.Recorded R texts) {d : Nat}
    (hd : d < h.current) (i : Nat) (v : Revision) (c : Nat)
    (hv : (h.trimmed d).revisions[i]? = some v)
    (hc : v.lastChild = some c) :
    ∃ w, (h.trimmed d).revisions[c]? = some w ∧ w.parent = i ∧ 0 < c := by
  rcases Nat.eq_zero_or_pos i with rfl | hi
  · -- the root's is the oldest revision kept
    obtain ⟨w, hw, hp⟩ := hr.oldest hd
    have hc1 : c = 1 := by
      unfold trimmed at hv
      cases hrev : h.revisions with
      | nil =>
          rw [hrev] at hw
          cases hw
      | cons root rest =>
          rw [hrev] at hv
          injection hv with hv
          subst hv
          injection hc with hc
          exact hc.symm
    subst hc1
    refine ⟨shifted d w, ?_, Nat.sub_eq_zero_of_le hp, Nat.zero_lt_one⟩
    rw [getElem?_trimmed h d Nat.zero_lt_one, Nat.add_comm 1 d, hw]
    rfl
  · rw [getElem?_trimmed h d hi, Option.map_eq_some_iff] at hv
    obtain ⟨v₀, hv₀, rfl⟩ := hv
    obtain ⟨c₀, hc₀, rfl⟩ := Option.map_eq_some_iff.mp hc
    obtain ⟨w, hw, hp, hpos⟩ := hr.child _ v₀ c₀ hv₀ hc₀
    have hlt := hr.tree.parent_lt c₀ w hw hpos
    refine ⟨shifted d w, ?_, ?_, by omega⟩
    · rw [getElem?_trimmed h d (by omega), Nat.sub_add_cancel (by omega), hw]
      rfl
    · show w.parent - d = i
      omega

/-- The texts after `d` revisions were dropped, `root` standing for what
the new root denotes. -/
def keptTexts (root : Rope) (texts : List Rope) (d : Nat) : List Rope :=
  root :: texts.drop (d + 1)

theorem textAt_keptTexts (root : Rope) (texts : List Rope) (d : Nat)
    {i : Nat} (hi : 0 < i) :
    textAt (keptTexts root texts d) i = textAt texts (i + d) := by
  obtain ⟨k, rfl⟩ := Nat.exists_eq_add_of_lt hi
  unfold textAt keptTexts
  rw [Nat.zero_add, List.getD_eq_getElem?_getD, List.getElem?_cons_succ,
    List.getElem?_drop, List.getD_eq_getElem?_getD,
    show d + 1 + k = k + 1 + d from by omega]

/-- The history a trim leaves records the texts it keeps exactly if every
revision kept whose parent is dropped, or is the root, starts from the
text of the new root. The sense of `R` has to be a function of the text
that a transaction starts from. -/
theorem trim_recorded_iff (hr : h.Recorded R texts)
    (hdet : ∀ e s t t', R e s t → R e s t' → t = t')
    (undoLevels : Nat) (root : Rope) :
    (∃ h', h.trimToUndoLevels undoLevels = .ok h' ∧
        h'.Recorded R
          (keptTexts root texts (h.dropCount undoLevels)))
      ↔ ∀ i v, h.revisions[i]? = some v → h.dropCount undoLevels < i →
          v.parent ≤ h.dropCount undoLevels →
          textAt texts v.parent = root := by
  have hdlt := h.dropCount_lt undoLevels
  rw [trim_eq hr]
  generalize h.dropCount undoLevels = d at hdlt ⊢
  obtain ⟨v₀, rest, hrev⟩ : ∃ v₀ rest, h.revisions = v₀ :: rest := by
    have := hr.current
    cases hrev : h.revisions with
    | nil =>
        rw [hrev] at this
        exact absurd this (Nat.not_lt_zero _)
    | cons v₀ rest => exact ⟨v₀, rest, rfl⟩
  have hroot : v₀.parent = 0 := hr.tree.root v₀ (by rw [hrev]; rfl)
  have hstate : ∀ i, 0 < i →
      textAt (keptTexts root texts d) i = textAt texts (i + d) :=
    fun i hi => textAt_keptTexts root texts d hi
  have hlen := hr.length
  have hcur := hr.current
  rw [hrev, List.length_cons] at hlen hcur
  -- the tree of the trimmed history, as a cut
  have htree : ∀ {v₀' : Revision} {kept : List Revision},
      Cut Revision.parent Revision.transaction Revision.inversion d rest kept →
      v₀'.parent = 0 →
      (Coherent Revision.parent Revision.transaction Revision.inversion
          R (v₀' :: kept) (textAt (keptTexts root texts d))
        ↔ ∀ i v, h.revisions[i]? = some v → d < i → v.parent ≤ d →
          textAt texts v.parent = root) := by
    intro v₀' kept hcut hroot'
    exact hr.tree.cut hdet hrev hcut hroot' hstate
  by_cases h0 : d = 0
  · subst h0
    have hcut : Cut Revision.parent Revision.transaction Revision.inversion 0
        rest rest :=
      List.forall₂_same.mpr fun v _ => ⟨rfl, rfl, rfl⟩
    rw [if_pos rfl, ← htree hcut hroot]
    constructor
    · rintro ⟨h', hh', hr'⟩
      injection hh' with hh'
      subst hh'
      rw [← hrev]
      exact hr'.tree
    · intro htree'
      refine ⟨h, rfl, ?_, ?_, hr.current, hr.child⟩
      · rw [hrev]
        exact htree'
      · rw [hrev, keptTexts, List.length_cons, List.length_drop,
          List.length_cons]
        omega
  · have hpos := Nat.pos_of_ne_zero h0
    have hd := hdlt hpos
    have hcut : Cut Revision.parent Revision.transaction Revision.inversion d
        rest ((rest.drop d).map (shifted d)) :=
      List.forall₂_map_right_iff.mpr
        (List.forall₂_same.mpr fun v _ => ⟨rfl, rfl, rfl⟩)
    have hrev' : (h.trimmed d).revisions
        = { v₀ with lastChild := some 1 }
          :: (rest.drop d).map (shifted d) := by
      unfold trimmed
      rw [hrev]
    rw [if_neg h0, ← @htree { v₀ with lastChild := some 1 } _ hcut hroot]
    constructor
    · rintro ⟨h', hh', hr'⟩
      injection hh' with hh'
      subst hh'
      rw [← hrev']
      exact hr'.tree
    · intro htree'
      refine ⟨h.trimmed d, rfl, ?_, ?_, ?_, hr.child_trimmed hd⟩
      · rw [hrev']
        exact htree'
      · rw [hrev', keptTexts, List.length_cons, List.length_drop,
          List.length_cons, List.length_map, List.length_drop]
        omega
      · rw [hrev', List.length_cons, List.length_map, List.length_drop]
        show h.current - d < _
        omega

-- == merges

/-- Merging a transaction into the current revision moves it to the new
text, if nothing hangs on the old one. -/
theorem merge_spec (hr : h.Recorded R texts) (hR : Transaction.Chains R)
    (hpos : 0 < h.current) {tx inversion : Transaction} {text : Rope}
    (original : State) (hinv : tx.invert original.doc = .ok inversion)
    (htx : R tx (textAt texts h.current) text)
    (hback : R (inversion.withSelection original.selection) text
      (textAt texts h.current))
    (hleaf : text = textAt texts h.current ∨
      ∀ (j : Nat) w, h.revisions[j]? = some w → 0 < j → w.parent ≠ h.current)
    (undoLevels : Nat) (now : Instant) :
    ∃ v v', h.revisions[h.current]? = some v ∧ v'.timestamp = now
      ∧ h.mergeLastRevision undoLevels tx original now
          = .ok { h with revisions := h.revisions.set h.current v' }
      ∧ Recorded R
          { h with revisions := h.revisions.set h.current v' }
          (texts.set h.current text) := by
  have hcur := hr.current
  obtain ⟨v, hi, hv⟩ := index_of_lt hcur
  obtain ⟨forth, hforth, hcforth⟩ :=
    hR _ _ _ _ _ (hr.tree.edge_forth _ v hv hpos) htx
  obtain ⟨back, hbk, hcback⟩ :=
    hR _ _ _ _ _ hback (hr.tree.edge_back _ v hv hpos)
  let v' : Revision :=
    { v with transaction := forth, inversion := back, timestamp := now }
  refine ⟨v, v', hv, rfl, ?_, ?_, ?_, ?_, ?_⟩
  · unfold mergeLastRevision
    rw [if_neg (by omega), hinv, ok_bind, hi, ok_bind, hforth, ok_bind, hbk]
    rfl
  · have hnew : textAt (texts.set h.current text) h.current = text :=
      textAt_set_self (by rw [hr.length]; exact hcur) text
    refine hr.tree.replace hpos hv (show v'.parent = v.parent from rfl)
      (fun j hj => ?_) ?_ ?_ ?_
    · exact textAt_set_ne (fun h => hj h.symm) text
    · rw [hnew]
      exact hcforth
    · rw [hnew]
      exact hcback
    · rw [hnew]
      exact hleaf
  · rw [List.length_set, List.length_set]
    exact hr.length
  · rw [List.length_set]
    exact hcur
  · intro i w c hw hc
    -- last children and parents are as they were
    have hsame : ∀ {j : Nat} {w : Revision},
        (h.revisions.set h.current v')[j]? = some w →
        ∃ w₀, h.revisions[j]? = some w₀ ∧ w.lastChild = w₀.lastChild := by
      intro j w hw
      by_cases hj : h.current = j
      · subst hj
        rw [List.getElem?_set_self hcur] at hw
        injection hw with hw
        exact ⟨v, hv, by rw [← hw]⟩
      · rw [List.getElem?_set_ne hj] at hw
        exact ⟨w, hw, rfl⟩
    obtain ⟨w₀, hw₀, hlast⟩ := hsame hw
    obtain ⟨w₁, hw₁, hp, hc0⟩ := hr.child i w₀ c hw₀ (hlast ▸ hc)
    by_cases hcc : h.current = c
    · subst hcc
      rw [hv] at hw₁
      injection hw₁ with hw₁
      subst hw₁
      exact ⟨v', List.getElem?_set_self hcur, hp, hc0⟩
    · exact ⟨w₁, (List.getElem?_set_ne hcc).trans hw₁, hp, hc0⟩

end History

end Zmax
